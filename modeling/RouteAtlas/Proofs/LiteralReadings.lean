import Mathlib
import RouteAtlas.Proofs.LiteralParts
import RouteAtlas.Syntax.SourceFile

/-!
# Reading string literals

Wherever the text of a string literal stands in a source, an expression that starts there is read as the whole
literal and nothing else. Its parts stand side by side, so no comments are put between them later. The value of
the node is what is read of the literal sign by sign, so it is the string that the literal writes exactly if
all signs are plain.
-/

namespace RouteAtlas.Syntax

namespace StringLiteral

open Source Rule

section Inside

variable {s : Source} {i j k : Nat} {quote : Quote} {part : Rule Node} {ns : List Node}

/-- Nodes without parts that stand side by side between two offsets. -/
inductive Leaves (s : Source) : Nat → Nat → List Node → Prop
  | nil
      {i : Nat} :
      Leaves s i i []
  | cons
      {kind : Kind}
      {i j k : Nat}
      {ns : List Node}
      (h : Leaves s j k ns) :
      Leaves s i k (nodeAt s kind i j [] :: ns)

theorem Leaves.append
    {ms : List Node}
    (hns : Leaves s i j ns)
    (hms : Leaves s j k ms) :
    Leaves s i k (ns ++ ms) := by
  induction hns with
  | nil => exact hms
  | cons _ ih => exact .cons (ih hms)

theorem withComments_leaf
    (kind : Kind)
    (i j : Nat) :
    withComments s (nodeAt s kind i j []) = nodeAt s kind i j [] := by
  simp [nodeAt, withComments, withCommentsAfter]

/-- No comments come between nodes that stand side by side. -/
theorem Leaves.withCommentsAfter_eq
    (h : Leaves s i j ns) :
    withCommentsAfter s (some i) j ns = ns := by
  induction h with
  | nil => simp [withCommentsAfter]
  | cons _ ih =>
    rw [withCommentsAfter, withComments_leaf]
    simp [nodeAt, Node.span, ih]

theorem Leaves.withComments_nodeAt
    (h : Leaves s i j ns)
    (hne : ns ≠ [])
    (kind : Kind) :
    withComments s (nodeAt s kind i j ns) = nodeAt s kind i j ns := by
  cases h with
  | nil => exact absurd rfl hne
  | @cons first i k j ns h =>
    have hrest := h.withCommentsAfter_eq
    rw [nodeAt, withComments, withCommentsAfter, withComments_leaf]
    simp only [nodeAt, Node.span, List.nil_append]
    rw [hrest]

/-- Whether nodes are fragments and escapes that are read as a text. -/
structure ReadAs
    (ns : List Node)
    (w : List Char) :
    Prop where
  kinds : ∀ n ∈ ns, n.kind = .stringFragment ∨ n.kind = .escapeSequence
  text_eq : (ns.map Node.fragmentText).flatMap String.toList = w

theorem readAs_nil : ReadAs [] [] :=
  ⟨by simp, rfl⟩

theorem ReadAs.fragment
    {w v : List Char}
    (h : ReadAs ns v)
    (hw : s.holds w i = true) :
    ReadAs (nodeAt s .stringFragment i (i + w.length) [] :: ns) (w ++ v) where
  kinds := List.forall_mem_cons.2 ⟨.inl rfl, h.kinds⟩
  text_eq := by
    simp [Node.fragmentText, nodeAt, Node.kind, Node.text, slice_of_holds hw, ← h.text_eq]

theorem ReadAs.escape
    {a : Sign}
    {v : List Char}
    (h : ReadAs ns v)
    (hloose : a.isLoose = false)
    (hw : s.holds a.text i = true) :
    ReadAs (nodeAt s .escapeSequence i (i + a.text.length) [] :: ns) (a.reading ++ v) where
  kinds := List.forall_mem_cons.2 ⟨.inr rfl, h.kinds⟩
  text_eq := by
    have hread : (Node.fragmentText (nodeAt s .escapeSequence i (i + a.text.length) [])).toList =
        a.reading := by
      simp only [Node.fragmentText, nodeAt, Node.kind, Node.text, slice_of_holds hw, String.toList_ofList,
        Sign.reading, hloose, Sign.afterBackslash]
      cases Node.simpleEscape? (a.text.drop 1) <;> simp
    rw [List.map_cons, List.flatMap_cons, hread, h.text_eq]

/-- Signs without escapes are read as they are written. -/
theorem flatMap_reading_of_isLoose
    {signs : List Sign}
    (h : ∀ a ∈ signs, a.isLoose) :
    signs.flatMap Sign.reading = signs.flatMap Sign.text :=
  List.flatMap_congr fun a ha => by rw [Sign.reading, if_pos (h a ha)]

theorem repeatRule_of_some
    {n : Node}
    {bound : Nat}
    (hn : part s i = some (n, j))
    (hij : i < j)
    (hns : repeatRule part bound s j = some (ns, k)) :
    repeatRule part (bound + 1) s i = some (n :: ns, k) := by
  have hij : ¬ j ≤ i := by omega
  simp only [repeatRule, hn, if_neg hij, hns]

/-- The signs before the first escape, and the others. -/
theorem exists_run (signs : List Sign) :
    ∃ run more,
      signs = run ++ more ∧ (∀ a ∈ run, a.isLoose) ∧ ∀ a ∈ more.head?, a.isLoose = false := by
  refine ⟨signs.takeWhile Sign.isLoose, signs.dropWhile Sign.isLoose,
    List.takeWhile_append_dropWhile.symm, fun a ha => List.mem_takeWhile_imp ha, fun a ha => ?_⟩
  have hhead := List.head?_dropWhile_not Sign.isLoose signs
  rw [Option.mem_def] at ha
  rwa [ha] at hhead

/-- Before a backslash or the closing quote a fragment ends. -/
theorem eq_backslash_or_char
    {signs : List Sign}
    {c : Char}
    (hsigns : ∀ a ∈ signs.head?, a.isLoose = false)
    (hc : c ∈ (signs.flatMap Sign.text ++ [quote.char]).head?) :
    c = '\\' ∨ c = quote.char := by
  cases signs with
  | nil =>
    obtain rfl : quote.char = c := by simpa using hc
    exact .inr rfl
  | cons a rest =>
    have hloose := hsigns a rfl
    rw [List.flatMap_cons, List.append_assoc, List.head?_append_of_ne_nil _ (text_ne_nil a)] at hc
    cases a with
    | raw d => cases hloose
    | returned fed => cases hloose
    | _ =>
      obtain rfl : '\\' = c := by simpa [Sign.text] using hc
      exact .inl rfl

/-- A word is followed by a character, if more stands there. -/
theorem exists_holds_head
    {w v : List Char}
    {c : Char}
    (h : s.holds (w ++ (v ++ [c])) i = true) :
    ∃ d, d ∈ (v ++ [c]).head? ∧ s.holds (w ++ [d]) i = true := by
  obtain ⟨d, rest, hd⟩ := List.exists_cons_of_ne_nil (l := v ++ [c]) (by simp)
  rw [hd, List.append_cons] at h
  exact ⟨d, by simp [hd], (holds_append.1 h).1⟩

/-- Signs up to the closing quote are read one after the other, those between two escapes at once. -/
theorem repeatRule_signs
    (hpart : Divides quote s part)
    (bound : Nat) :
    ∀ (signs : List Sign) (i : Nat), (∀ a ∈ signs, a.IsAllowed quote) →
      signs.IsChain (Sign.StaysApart quote) →
      s.holds (signs.flatMap Sign.text ++ [quote.char]) i = true →
      (signs.flatMap Sign.text).length < bound →
      ∃ ns, repeatRule part bound s i = some (ns, i + (signs.flatMap Sign.text).length) ∧
        Leaves s i (i + (signs.flatMap Sign.text).length) ns ∧ ReadAs ns (signs.flatMap Sign.reading) := by
  induction bound with
  | zero => intro signs i _ _ _ hbound; omega
  | succ bound ih =>
    intro signs i hallowed happart h hbound
    cases signs with
    | nil => exact ⟨[], by simp [repeatRule, hpart.stops h], .nil, readAs_nil⟩
    | cons a rest =>
      have hlength := List.length_pos_iff.2 (text_ne_nil a)
      cases hloose : a.isLoose with
      | false =>
        rw [List.flatMap_cons, List.append_assoc] at h
        rw [List.flatMap_cons, List.length_append] at hbound
        obtain ⟨c, hc, hnext⟩ := exists_holds_head h
        obtain ⟨ha, hrest⟩ := holds_append.1 h
        have hread := hpart.escape hloose (hallowed a (by simp))
          (isContinuedBy_of_head happart (isNeutral_char quote) hc) hnext
        obtain ⟨ns, hns, hleaves, hreadAs⟩ := ih rest (i + a.text.length)
          (fun b hb => hallowed b (by simp [hb])) happart.tail hrest (by omega)
        rw [List.flatMap_cons, List.flatMap_cons, List.length_append, ← Nat.add_assoc]
        exact ⟨_, repeatRule_of_some hread (by omega) hns, .cons hleaves, hreadAs.escape hloose ha⟩
      | true =>
        -- the signs up to the next escape make one fragment
        obtain ⟨run, more, hsigns, hrun, hmore⟩ := exists_run (a :: rest)
        have hne : run ≠ [] := by
          rintro rfl
          rw [List.nil_append] at hsigns
          rw [← hsigns] at hmore
          simp [hloose] at hmore
        rw [hsigns] at hallowed happart h hbound ⊢
        rw [List.flatMap_append, List.append_assoc] at h
        rw [List.flatMap_append, List.length_append] at hbound
        have hlength : 0 < (run.flatMap Sign.text).length := by
          obtain ⟨b, others, rfl⟩ := List.exists_cons_of_ne_nil hne
          have := List.length_pos_iff.2 (text_ne_nil b)
          simp only [List.flatMap_cons, List.length_append]
          omega
        obtain ⟨c, hc, hnext⟩ := exists_holds_head h
        obtain ⟨hword, hrest⟩ := holds_append.1 h
        obtain ⟨happartRun, happartMore, -⟩ := List.isChain_append.1 happart
        have hread := hpart.fragment hne hrun (fun b hb => hallowed b (by simp [hb])) happartRun
          (eq_backslash_or_char hmore hc) hnext
        obtain ⟨ns, hns, hleaves, hreadAs⟩ := ih more (i + (run.flatMap Sign.text).length)
          (fun b hb => hallowed b (by simp [hb])) happartMore hrest (by omega)
        rw [List.flatMap_append, List.flatMap_append, List.length_append, ← Nat.add_assoc,
          flatMap_reading_of_isLoose hrun]
        exact ⟨_, repeatRule_of_some hread (by omega) hns, .cons hleaves, hreadAs.fragment hword⟩

end Inside

section Literals

variable {s : Source} {i : Nat} {quote : Quote} {part : Rule Node} {l : StringLiteral}

/-- The kind of a literal. -/
def Quote.kind : Quote → Kind
  | .tick => .templateString
  | _ => .string

/-- The rule for what stands between two quotes. -/
def quoted
    (quote : Quote)
    (part : Rule Node) :
    Rule Node := do
  let left ← token (String.singleton quote.char)
  let inside ← many part
  let right ← exactToken (String.singleton quote.char)
  build quote.kind (left :: inside ++ [right])

theorem next_of_quote (h : s.holds [quote.char] i = true) : s.next i = i :=
  next_of_holds h (by cases quote <;> decide) (by cases quote <;> decide)

theorem token_of_quote (h : s.holds [quote.char] i = true) :
    token (String.singleton quote.char) s i = some (nodeAt s .token i (i + 1) [], i + 1) := by
  simp [token, leaf, next_of_quote h, h]

theorem exactToken_of_quote (h : s.holds [quote.char] i = true) :
    exactToken (String.singleton quote.char) s i = some (nodeAt s .token i (i + 1) [], i + 1) := by
  simp [exactToken, exactly, h]

theorem build_of_ends
    {j : Nat}
    (kind : Kind)
    (first last : Node)
    (inside : List Node) :
    build kind (first :: inside ++ [last]) s j =
      some (nodeAt s kind first.span.start last.span.stop (first :: inside ++ [last]), j) := by
  have hlast : (first :: inside ++ [last]).getLast? = some last := by
    rw [List.getLast?_append]
    rfl
  rw [build, hlast]
  rfl

/-- What is read of the text of a literal: a node of the whole, made of the quotes and what is read of the
signs between them. -/
structure IsLiteralNode
    (l : StringLiteral)
    (s : Source)
    (i : Nat)
    (n : Node) :
    Prop where
  kind_eq : n.kind = l.quote.kind
  text_eq : n.text = String.ofList l.text
  comments_eq : withComments s n = n
  readAs : ReadAs n.namedChildren (l.signs.flatMap Sign.reading)

/-- The node of a literal, given its parts between the quotes. -/
theorem isLiteralNode_nodeAt
    {inside : List Node}
    {k : Nat}
    (h : s.holds l.text i = true)
    (hk : i + l.text.length = k + 1)
    (hleaves : Leaves s (i + 1) k inside)
    (hreadAs : ReadAs inside (l.signs.flatMap Sign.reading)) :
    l.IsLiteralNode s i (nodeAt s l.quote.kind i (k + 1)
      (nodeAt s .token i (i + 1) [] :: inside ++ [nodeAt s .token k (k + 1) []])) where
  kind_eq := rfl
  text_eq := by
    rw [← hk]
    exact slice_of_holds h
  comments_eq := by
    have hall : Leaves s i (k + 1) (nodeAt s .token i (i + 1) [] :: inside ++ [nodeAt s .token k (k + 1) []]) :=
      .cons (hleaves.append (.cons .nil))
    exact hall.withComments_nodeAt (by simp) _
  readAs := by
    have hnamed : inside.filter Node.isNamed = inside := by
      refine List.filter_eq_self.2 fun n hn => ?_
      rcases hreadAs.kinds n hn with hkind | hkind <;> simp [Node.isNamed, hkind]
    have hchildren : (nodeAt s l.quote.kind i (k + 1)
        (nodeAt s .token i (i + 1) [] :: inside ++ [nodeAt s .token k (k + 1) []])).namedChildren = inside := by
      change List.filter Node.isNamed (_ :: inside ++ [_]) = inside
      rw [List.cons_append, List.filter_cons_of_neg (by simp [nodeAt, Node.isNamed, Node.kind]),
        List.filter_append, hnamed, List.filter_cons_of_neg (by simp [nodeAt, Node.isNamed, Node.kind]),
        List.filter_nil, List.append_nil]
    rw [hchildren]
    exact hreadAs

theorem quoted_of_holds
    (hpart : Divides l.quote s part)
    (h : s.holds l.text i = true) :
    ∃ n, quoted l.quote part s i = some (n, i + l.text.length) ∧ l.IsLiteralNode s i n := by
  have hsize := le_size_of_holds (by simp [text]) h
  have hlength : i + l.text.length = i + 1 + (l.signs.flatMap Sign.text).length + 1 := by
    simp only [text, inner, List.length_cons, List.length_append, List.length_nil]
    omega
  have hparts := h
  rw [text, ← List.singleton_append] at hparts
  obtain ⟨hleft, hinside⟩ := holds_append.1 hparts
  have hright : s.holds [l.quote.char] (i + 1 + (l.signs.flatMap Sign.text).length) = true :=
    (holds_append.1 hinside).2
  obtain ⟨inside, hmany, hleaves, hreadAs⟩ := repeatRule_signs hpart (s.size + 1 - (i + 1)) l.signs (i + 1)
    l.isAllowed l.staysApart hinside (by omega)
  refine ⟨_, ?_, isLiteralNode_nodeAt h hlength hleaves hreadAs⟩
  rw [quoted, bind_of_some (token_of_quote hleft), bind_of_some (r := many part) hmany,
    bind_of_some (exactToken_of_quote hright), build_of_ends, hlength]
  rfl

/-- The value of the node of a literal is what is read of its signs. -/
theorem IsLiteralNode.stringValue?_eq
    {n : Node}
    (h : l.IsLiteralNode s i n) :
    n.stringValue? = some l.reading := by
  have hwrapper : n.isWrapper = false := by
    rw [Node.isWrapper, h.kind_eq]
    cases l.quote <;> rfl
  have hjoined : n.joinFragments = l.reading := by
    rw [← String.toList_inj, Node.joinFragments, String.toList_join, h.readAs.text_eq, reading,
      String.toList_ofList]
  have hnone : (n.namedChildren.any fun c => c.kind == .templateSubstitution) = false := by
    rw [List.any_eq_false]
    intro c hc
    rcases h.readAs.kinds c hc with hkind | hkind <;> simp [hkind]
  rw [Node.stringValue?, Node.unwrap_of_not_isWrapper hwrapper, h.kind_eq]
  cases l.quote <;> simp [Quote.kind, hjoined, hnone]

/-- An expression that starts with a quote is read as what stands between two quotes. -/
theorem primary_of_quote
    (self : Reader)
    (h : s.holds [quote.char] i = true) :
    primary self s i =
      quoted quote (if quote = .tick then templatePart self else stringPart quote) s i := by
  have hpeek : peek s i = some (quote.char, i) := by
    rw [peek, next_of_quote h, (holds_cons.1 h).2.1]
  rw [primary, bind_of_some hpeek]
  cases quote with
  | tick => rfl
  | single =>
    rw [if_pos (by decide), string, bind_of_some hpeek]
    rfl
  | double =>
    rw [if_pos (by decide), string, bind_of_some hpeek]
    rfl

/-- Wherever the text of a string literal stands, an expression that starts there is read as a node of the
literal, into which no comments are put later, and its value is what is read of the signs. This is the string
that the literal writes exactly if all signs are plain. -/
theorem stringValue?_of_holds
    (l : StringLiteral)
    (self : Reader)
    (s : Source)
    (i : Nat)
    (h : s.holds l.text i = true) :
    ∃ n, primary self s i = some (n, i + l.text.length) ∧ n.text = String.ofList l.text ∧
      withComments s n = n ∧ n.stringValue? = some l.reading ∧ (l.Writes l.reading ↔ l.IsPlain) ∧
      ∀ v, l.Writes v → (n.stringValue? = some v ↔ l.IsPlain) := by
  have hdivides : Divides l.quote s (if l.quote = .tick then templatePart self else stringPart l.quote) := by
    split
    · next htick => exact htick ▸ divides_templatePart self s
    · next htick => exact divides_stringPart htick s
  have hquote : s.holds [l.quote.char] i = true := by
    rw [text, ← List.singleton_append] at h
    exact (holds_append.1 h).1
  obtain ⟨n, hn, hnode⟩ := quoted_of_holds hdivides h
  have hwrites := l.writes_reading_iff
  refine ⟨n, by rw [primary_of_quote self hquote, hn], hnode.text_eq, hnode.comments_eq,
    hnode.stringValue?_eq, hwrites, fun v hv => ?_⟩
  rw [hnode.stringValue?_eq, Option.some_inj, ← hwrites]
  exact ⟨fun heq => heq ▸ hv, fun hreading => hreading.unique hv⟩

/-- A literal with an apostrophe, a tabulator and a character of two code units. -/
def apostrophe : StringLiteral where
  quote := .single
  signs := [.raw 'i', .raw 't', .itself (Char.ofNat 39), .raw 's', .simple 't', .raw '😀']
  isAllowed := by decide
  staysApart := by decide

theorem stringValue?_of_holds_apostrophe :
    (Source.ofText .plain "f('it\\'s\\t😀')").holds apostrophe.text 2 = true ∧
      apostrophe.Writes "it's\t😀" ∧
      ∃ n, primary (fun _ => Rule.fail) (.ofText .plain "f('it\\'s\\t😀')") 2 = some (n, 12) ∧
        n.stringValue? = some "it's\t😀" := by
  have hholds : (Source.ofText .plain "f('it\\'s\\t😀')").holds apostrophe.text 2 = true := by decide
  have hwrites : apostrophe.Writes "it's\t😀" := by decide
  obtain ⟨n, hn, -, -, -, -, hvalue⟩ := stringValue?_of_holds apostrophe (fun _ => Rule.fail) _ 2 hholds
  exact ⟨hholds, hwrites, n, hn, (hvalue _ hwrites).2 (by decide)⟩

/-- A letter that is written by its number. -/
def numbered : StringLiteral where
  quote := .single
  signs := [.twoDigits ['4', '1']]
  isAllowed := by decide
  staysApart := by decide

/-- The initializer of the first variable of a file. -/
def firstInitializer? (f : SourceFile) : Option Node :=
  f.boundVariables.head?.bind Variable.value

/-- A file with a variable that is initialized by a literal. -/
def numberedFile : SourceFile :=
  .ofText ⟨true, ["numbered.ts"]⟩ "const v = '\\x41';\n"

/-- The digits are taken for what is written. -/
theorem stringValue?_ne_numbered :
    numbered.Writes "A" ∧
      (firstInitializer? numberedFile).map Node.text = some (String.ofList numbered.text) ∧
      (firstInitializer? numberedFile).bind Node.stringValue? = some "x41" := by
  exact ⟨by decide +kernel, by decide +kernel, by decide +kernel⟩

end Literals

end StringLiteral

end RouteAtlas.Syntax
