import Mathlib
import RouteAtlas.Syntax.Grammar.Literals

/-!
# Pieces of a source

A node that a rule of the grammar makes covers a piece of the source: its text is what stands between its
offsets, and its line is that of the first one. So do all nodes below it, because a node is made of nodes
that were made before. Rules that are put together from such rules are such rules.

The lemmas about rules are tagged for `grind`: those that take a rule apart are applied backwards, and what
is made of several nodes is normalised to a conjunction about the single ones.
-/

namespace RouteAtlas.Syntax

namespace Node

section Pieces

/-- Whether a node has the text between its offsets and the line of the first one. -/
structure Covers
    (s : Source)
    (n : Node) :
    Prop where
  text_eq : n.text = s.slice n.span.start n.span.stop
  line_eq : n.line = s.lineAt n.span.start

/-- Whether a node and all nodes below it cover pieces of a source. -/
def IsPiece
    (s : Source)
    (n : Node) :
    Prop :=
  ∀ m ∈ n.subtree, m.Covers s

variable {s : Source} {n : Node} {ns : List Node}

theorem mem_forest_iff : n ∈ forest ns ↔ ∃ m ∈ ns, n ∈ m.subtree := by
  induction ns with
  | nil => simp [forest]
  | cons m rest ih => simp [forest, ih]

theorem subtree_eq (n : Node) : n.subtree = n :: forest n.children := by
  cases n
  rw [subtree, children]

theorem isPiece_iff : n.IsPiece s ↔ n.Covers s ∧ ∀ c ∈ n.children, c.IsPiece s := by
  simp only [IsPiece, subtree_eq n, List.forall_mem_cons, mem_forest_iff]
  exact and_congr_right' ⟨fun h c hc m hm => h m ⟨c, hc, hm⟩, fun h m ⟨c, hc, hm⟩ => h c hc m hm⟩

theorem isPiece_withRole (r : Role) : (n.withRole r).IsPiece s ↔ n.IsPiece s := by
  rw [isPiece_iff, isPiece_iff (n := n)]
  exact and_congr_left' ⟨fun h => ⟨h.1, h.2⟩, fun h => ⟨h.1, h.2⟩⟩

theorem isPiece_withKind (k : Kind) : (n.withKind k).IsPiece s ↔ n.IsPiece s := by
  rw [isPiece_iff, isPiece_iff (n := n)]
  exact and_congr_left' ⟨fun h => ⟨h.1, h.2⟩, fun h => ⟨h.1, h.2⟩⟩

theorem isPiece_nodeAt
    {kind : Kind}
    {start stop : Nat} :
    (Rule.nodeAt s kind start stop ns).IsPiece s ↔ ∀ c ∈ ns, c.IsPiece s := by
  rw [isPiece_iff]
  exact and_iff_right ⟨rfl, rfl⟩

end Pieces

end Node

section Values

/-- What a rule may give, with the nodes in it being pieces of a source. -/
class HasPieces (α : Type) where
  /-- Whether all nodes in a value are pieces of a source. -/
  Pieces : Source → α → Prop

export HasPieces (Pieces)

instance : HasPieces Node := ⟨Node.IsPiece⟩

instance {α : Type} [HasPieces α] : HasPieces (List α) := ⟨fun s as => ∀ a ∈ as, Pieces s a⟩

instance {α β : Type} [HasPieces α] [HasPieces β] : HasPieces (α × β) :=
  ⟨fun s p => Pieces s p.1 ∧ Pieces s p.2⟩

instance : HasPieces Unit := ⟨fun _ _ => True⟩

instance : HasPieces Bool := ⟨fun _ _ => True⟩

instance : HasPieces Nat := ⟨fun _ _ => True⟩

instance : HasPieces Char := ⟨fun _ _ => True⟩

instance : HasPieces String := ⟨fun _ _ => True⟩

instance : HasPieces Kind := ⟨fun _ _ => True⟩

instance : HasPieces Source := ⟨fun _ _ => True⟩

variable {α β : Type} [HasPieces α] [HasPieces β] {s : Source}

@[grind norm] theorem pieces_withRole
    (r : Role)
    (n : Node) :
    Pieces s (n.withRole r) ↔ Pieces s n :=
  Node.isPiece_withRole r

@[grind norm] theorem pieces_withKind
    (k : Kind)
    (n : Node) :
    Pieces s (n.withKind k) ↔ Pieces s n :=
  Node.isPiece_withKind k

@[grind norm] theorem pieces_kind (k : Kind) : Pieces s k ↔ True :=
  Iff.rfl

@[grind norm] theorem pieces_nil : Pieces s ([] : List α) ↔ True := by
  simp [Pieces]

@[grind norm] theorem pieces_cons
    (a : α)
    (as : List α) :
    Pieces s (a :: as) ↔ Pieces s a ∧ Pieces s as :=
  List.forall_mem_cons

@[grind norm] theorem pieces_append (as bs : List α) :
    Pieces s (as ++ bs) ↔ Pieces s as ∧ Pieces s bs :=
  List.forall_mem_append

@[grind norm] theorem pieces_map_withRole
    (r : Role)
    (ns : List Node) :
    Pieces s (ns.map (Node.withRole r)) ↔ Pieces s ns :=
  List.forall_mem_map.trans (forall₂_congr fun n _ => pieces_withRole r n)

@[grind norm] theorem pieces_flatten (ass : List (List α)) : Pieces s ass.flatten ↔ Pieces s ass := by
  simp only [Pieces, List.mem_flatten]
  exact ⟨fun h as has a ha => h a ⟨as, has, ha⟩, fun h a ⟨as, has, ha⟩ => h as has a ha⟩

@[grind norm] theorem pieces_pair (p : α × β) : Pieces s p ↔ Pieces s p.1 ∧ Pieces s p.2 :=
  Iff.rfl

end Values

namespace Rule

section Combinators

variable {α β : Type} [HasPieces α] [HasPieces β] {s : Source}

/-- Whether all that a rule makes of a source are pieces of it. -/
def Cuts
    (s : Source)
    (r : Rule α) :
    Prop :=
  ∀ i a j, r s i = some (a, j) → Pieces s a

@[grind ←] theorem Cuts.pure
    {a : α}
    (h : Pieces s a) :
    Cuts s (Pure.pure a) := by
  rintro i b j hb
  cases hb
  exact h

@[grind ←] theorem Cuts.bind
    {r : Rule α}
    {f : α → Rule β}
    (hr : Cuts s r)
    (hf : ∀ a, Pieces s a → Cuts s (f a)) :
    Cuts s (r >>= f) := by
  intro i b j hb
  simp only [Bind.bind] at hb
  split at hb
  · cases hb
  · next a k ha => exact hf a (hr i a k ha) k b j hb

@[grind norm] theorem cuts_ite
    {p : Prop}
    [Decidable p]
    (r r' : Rule α) :
    Cuts s (if p then r else r') ↔ (p → Cuts s r) ∧ (¬p → Cuts s r') := by
  split <;> simp [*]

@[grind norm] theorem cuts_fail : Cuts s (fail : Rule α) := by
  rintro i a j ⟨⟩

@[grind ←] theorem cuts_orElse
    {r r' : Rule α}
    (h : Cuts s r)
    (h' : Cuts s r') :
    Cuts s (orElse r r') := by
  intro i a j ha
  unfold orElse at ha
  split at ha
  · next hfirst =>
    cases ha
    exact h i a j hfirst
  · exact h' i a j ha

/-- Whether all that some rules make of a source are pieces of it. -/
def AllCut
    (s : Source)
    (rs : List (Rule α)) :
    Prop :=
  ∀ r ∈ rs, Cuts s r

@[grind norm] theorem allCut_nil : AllCut s ([] : List (Rule α)) ↔ True := by
  simp [AllCut]

@[grind norm] theorem allCut_cons
    (r : Rule α)
    (rs : List (Rule α)) :
    AllCut s (r :: rs) ↔ Cuts s r ∧ AllCut s rs :=
  List.forall_mem_cons

@[grind norm] theorem allCut_append (rs rs' : List (Rule α)) :
    AllCut s (rs ++ rs') ↔ AllCut s rs ∧ AllCut s rs' :=
  List.forall_mem_append

attribute [grind norm] List.map_nil List.map_cons

theorem allCut_map
    {γ : Type}
    (f : γ → Rule α)
    (cs : List γ) :
    AllCut s (cs.map f) ↔ ∀ c ∈ cs, Cuts s (f c) :=
  List.forall_mem_map

@[grind ←] theorem cuts_oneOf
    {rs : List (Rule α)}
    (h : AllCut s rs) :
    Cuts s (oneOf rs) := by
  induction rs with
  | nil => exact cuts_fail
  | cons r rest ih =>
    rw [allCut_cons] at h
    exact cuts_orElse h.1 (ih h.2)

@[grind norm] theorem cuts_guard (condition : Bool) : Cuts s (guard condition) :=
  fun _ _ _ _ => trivial

@[grind norm] theorem cuts_here : Cuts s here :=
  fun _ _ _ _ => ⟨trivial, trivial⟩

@[grind norm] theorem cuts_refuses
    {γ : Type}
    (r : Rule γ) :
    Cuts s (refuses r) :=
  fun _ _ _ _ => trivial

@[grind norm] theorem cuts_peek : Cuts s peek :=
  fun _ _ _ _ => trivial

@[grind norm] theorem cuts_peekName : Cuts s peekName :=
  fun _ _ _ _ => trivial

@[grind norm] theorem cuts_lineBreakAhead : Cuts s lineBreakAhead :=
  fun _ _ _ _ => trivial

@[grind norm] theorem cuts_arrowAhead : Cuts s arrowAhead :=
  fun _ _ _ _ => trivial

@[grind norm] theorem cuts_assignmentAhead : Cuts s assignmentAhead :=
  fun _ _ _ _ => trivial

end Combinators

section Nodes

variable {s : Source} {children : List Node}

@[grind ←] theorem cuts_build
    (h : Pieces s children)
    (kind : Kind) :
    Cuts s (build kind children) := by
  intro i n j hn
  unfold build at hn
  split at hn
  · cases hn
    exact Node.isPiece_nodeAt.2 h
  · cases hn

@[grind ←] theorem cuts_buildToHere
    (h : Pieces s children)
    (kind : Kind) :
    Cuts s (buildToHere kind children) := by
  intro i n j hn
  unfold buildToHere at hn
  split at hn
  · cases hn
    exact Node.isPiece_nodeAt.2 h
  · cases hn

@[grind norm] theorem cuts_leaf
    (kind : Kind)
    (stop? : Source → Nat → Option Nat) :
    Cuts s (leaf kind stop?) := by
  intro i n j hn
  unfold leaf at hn
  dsimp only at hn
  split at hn
  · cases hn
    exact Node.isPiece_nodeAt.2 (by simp)
  · cases hn

@[grind norm] theorem cuts_exactly
    (kind : Kind)
    (stop? : Source → Nat → Option Nat) :
    Cuts s (exactly kind stop?) := by
  intro i n j hn
  unfold exactly at hn
  split at hn
  · cases hn
    exact Node.isPiece_nodeAt.2 (by simp)
  · cases hn

end Nodes

section Tokens

variable {s : Source}

@[grind norm] theorem cuts_token (t : String) : Cuts s (token t) :=
  cuts_leaf _ _

@[grind norm] theorem cuts_wordAs
    (kind : Kind)
    (w : String) :
    Cuts s (wordAs kind w) :=
  cuts_leaf _ _

@[grind norm] theorem cuts_word (w : String) : Cuts s (word w) :=
  cuts_wordAs _ _

@[grind norm] theorem cuts_wordOf (ws : List String) : Cuts s (wordOf ws) :=
  cuts_oneOf ((allCut_map _ _).2 fun w _ => cuts_word w)

@[grind norm] theorem cuts_name (kind : Kind) : Cuts s (name kind) :=
  cuts_leaf _ _

@[grind norm] theorem cuts_identifierAs (kind : Kind) : Cuts s (identifierAs kind) :=
  cuts_leaf _ _

@[grind norm] theorem cuts_identifier : Cuts s identifier := by
  refine .bind (cuts_identifierAs _) fun n hn => .pure ?_
  split
  · exact (pieces_withKind _ n).2 hn
  · exact hn

@[grind norm] theorem cuts_privateName : Cuts s privateName :=
  cuts_leaf _ _

@[grind norm] theorem cuts_number : Cuts s number :=
  cuts_leaf _ _

end Tokens

section Repetition

variable {α : Type} [HasPieces α] {s : Source}

@[grind norm] theorem cuts_opt (r : Rule α) : Cuts s (opt r) ↔ Cuts s r := by
  constructor
  · intro h i a j ha
    exact h i [a] j (by rw [opt, ha]) a (List.mem_singleton_self a)
  · intro h i as j has
    unfold opt at has
    split at has
    · next a k ha =>
      cases has
      exact List.forall_mem_singleton.2 (h i a j ha)
    · cases has
      simp [Pieces]

theorem cuts_repeatRule
    {r : Rule α}
    (h : Cuts s r)
    (n : Nat) :
    Cuts s (repeatRule r n) := by
  induction n with
  | zero =>
    rintro i as j has
    cases has
    simp [Pieces]
  | succ n ih =>
    intro i as j has
    unfold repeatRule at has
    split at has
    · cases has
      simp [Pieces]
    · next a k ha =>
      split at has
      · cases has
        simp [Pieces]
      · split at has
        · next as' k' has' =>
          cases has
          exact List.forall_mem_cons.2 ⟨h i a k ha, ih k as' j has'⟩
        · cases has
          exact List.forall_mem_singleton.2 (h i a j ha)

@[grind ←] theorem cuts_many
    {r : Rule α}
    (h : Cuts s r) :
    Cuts s (many r) :=
  fun i => cuts_repeatRule h _ i

variable {item separator : Rule Node}

@[grind ←] theorem cuts_sepBy1
    (h : Cuts s item)
    (h' : Cuts s separator) :
    Cuts s (sepBy1 item separator) := by
  unfold sepBy1
  grind

@[grind ←] theorem cuts_commaList (h : Cuts s item) : Cuts s (commaList item) := by
  unfold commaList
  grind

@[grind ←] theorem cuts_bracketed
    (h : Cuts s item)
    (left right : String) :
    Cuts s (bracketed left item right) := by
  unfold bracketed
  grind

@[grind norm] theorem cuts_as_
    (role : Role)
    (item : Rule Node) :
    Cuts s (as_ role item) ↔ Cuts s item := by
  constructor
  · intro h i n j hn
    have has : as_ role item s i = some (n.withRole role, j) := by
      simp [as_, Bind.bind, Pure.pure, hn]
    exact (pieces_withRole role n).1 (h i _ j has)
  · intro h
    unfold as_
    grind

end Repetition

section StatementEnds

variable {s : Source} {children : List Node}

@[grind norm] theorem cuts_statementEnd (inType : Bool) : Cuts s (statementEnd inType) := by
  refine cuts_orElse (by grind) fun i ns j hns => ?_
  obtain ⟨k, -, hk⟩ := Option.map_eq_some_iff.1 hns
  cases hk
  simp [Pieces]

@[grind ←] theorem cuts_endStatement
    (h : Pieces s children)
    (kind : Kind)
    (inType : Bool) :
    Cuts s (endStatement kind children inType) := by
  unfold endStatement
  grind

@[grind ←] theorem cuts_endDeclaration
    (h : Pieces s children)
    (kind : Kind) :
    Cuts s (endDeclaration kind children) := by
  refine cuts_orElse (fun i n j hn => ?_) (cuts_build h kind)
  split at hn
  · exact cuts_buildToHere h kind _ n j hn
  · cases hn

end StatementEnds

section Literals

variable {s : Source}

@[grind norm] theorem cuts_exactToken (t : String) : Cuts s (exactToken t) :=
  cuts_exactly _ _

@[grind norm] theorem cuts_run
    (kind : Kind)
    (p : Char → Bool) :
    Cuts s (run kind p) :=
  cuts_exactly _ _

@[grind norm] theorem cuts_escape : Cuts s escape :=
  cuts_exactly _ _

@[grind norm] theorem cuts_stringIn (quote : Char) : Cuts s (stringIn quote) := by
  unfold stringIn
  grind

@[grind norm] theorem cuts_string : Cuts s string := by
  unfold string
  grind

@[grind norm] theorem cuts_templateText : Cuts s templateText :=
  cuts_exactly _ _

@[grind ←] theorem cuts_templateOf
    {content : Rule Node}
    (h : Cuts s content)
    (kind substitution : Kind) :
    Cuts s (templateOf kind substitution content) := by
  unfold templateOf
  refine .bind (cuts_token _) fun l _ => .bind (cuts_many (cuts_oneOf ?_)) fun inside _ => ?_
  all_goals grind

@[grind ←] theorem cuts_template
    {self : Reader}
    (h : ∀ g, Cuts s (self g)) :
    Cuts s (template self) :=
  cuts_templateOf (h _) _ _

@[grind norm] theorem cuts_regex : Cuts s regex := by
  unfold regex
  grind

end Literals

end Rule

end RouteAtlas.Syntax
