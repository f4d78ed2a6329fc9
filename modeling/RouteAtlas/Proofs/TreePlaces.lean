import Mathlib
import RouteAtlas.Proofs.StatementPieces
import RouteAtlas.Syntax.SourceFile

/-!
# Where nodes stand

Every node of the tree of a file stands in the text of the file: its text is a stretch of it, and its line
is the number of line breaks before that stretch, counted from one.

The rules of the grammar make pieces of the source for any bound on the nesting, and the comments that are
put into the tree are pieces too. What offsets and lines are is told by the table of line breaks, which holds
the number of line breaks before each offset.
-/

namespace RouteAtlas.Syntax

section Trees

variable {s : Source}

namespace Rule

theorem cuts_step
    {self : Reader}
    (h : ∀ g, Cuts s (self g))
    (goal : Goal) :
    Cuts s (step self goal) := by
  cases goal <;> simp only [step] <;> grind

theorem cuts_upTo
    (depth : Nat)
    (goal : Goal) :
    Cuts s (upTo depth goal) := by
  induction depth generalizing goal with
  | zero => exact cuts_fail
  | succ depth ih => exact cuts_step ih goal

end Rule

open Rule

theorem isPiece_of_mem_commentNodes
    {start stop : Nat}
    {n : Node}
    (h : n ∈ commentNodes s start stop) :
    n.IsPiece s := by
  obtain ⟨c, -, rfl⟩ := List.mem_map.1 h
  exact Node.isPiece_nodeAt.2 (by simp)

mutual

theorem isPiece_withComments : ∀ n : Node, n.IsPiece s → (withComments s n).IsPiece s
  | .mk kind role span text children => by
    intro h
    rw [Node.isPiece_iff] at h ⊢
    rw [withComments]
    exact ⟨⟨h.1.text_eq, h.1.line_eq⟩, pieces_withCommentsAfter none span.stop children h.2⟩

theorem pieces_withCommentsAfter :
    ∀ (before : Option Nat) (stop : Nat) (ns : List Node), Pieces s ns →
      Pieces s (withCommentsAfter s before stop ns)
  | none, _, [] => fun _ => by simp [withCommentsAfter, Pieces]
  | some i, stop, [] => fun _ => by
    rw [withCommentsAfter]
    split
    · exact fun n => isPiece_of_mem_commentNodes
    · simp [Pieces]
  | none, stop, c :: rest => by
    intro h
    rw [pieces_cons] at h
    simp only [withCommentsAfter, List.nil_append]
    exact (pieces_cons _ _).2 ⟨isPiece_withComments c h.1, pieces_withCommentsAfter _ stop rest h.2⟩
  | some i, stop, c :: rest => by
    intro h
    rw [pieces_cons] at h
    simp only [withCommentsAfter]
    refine (pieces_append _ _).2 ⟨?_, (pieces_cons _ _).2 ⟨isPiece_withComments c h.1, ?_⟩⟩
    · split
      · exact fun n => isPiece_of_mem_commentNodes
      · simp [Pieces]
    · exact pieces_withCommentsAfter _ stop rest h.2

end

theorem cuts_interpreterLine : Cuts s interpreterLine := by
  intro i n j hn
  unfold interpreterLine at hn
  split at hn
  · cases hn
    exact Node.isPiece_nodeAt.2 (by simp)
  · cases hn

theorem cuts_strayLine : Cuts s strayLine := by
  intro i n j hn
  unfold strayLine at hn
  dsimp only at hn
  split at hn
  · cases hn
  · cases hn
    exact Node.isPiece_nodeAt.2 (by simp)

theorem cuts_statements : Cuts s statements := by
  refine .bind cuts_here fun ⟨s', _⟩ _ => .bind ((cuts_opt _).2 cuts_interpreterLine) fun first hfirst =>
    .bind (cuts_many (cuts_orElse (cuts_upTo _ _) cuts_strayLine)) fun more hmore => ?_
  exact .pure ((pieces_append _ _).2 ⟨hfirst, hmore⟩)

/-- All nodes of a syntax tree are pieces of its source. -/
theorem isPiece_parse
    (dialect : Dialect)
    (text : String) :
    (parse dialect text).IsPiece (.ofText dialect text) := by
  unfold parse
  extract_lets s body firstToken lead start rest
  have hbody : Pieces s body := by
    unfold body
    split
    · next nodes i hnodes => exact cuts_statements 0 nodes i hnodes
    · simp [Pieces]
  have hrest : Pieces s rest := by
    unfold rest
    clear_value body
    cases body with
    | nil => simp [Pieces]
    | cons first more =>
      rw [pieces_cons] at hbody
      exact (pieces_cons _ _).2 ⟨isPiece_withComments first hbody.1, pieces_withCommentsAfter _ _ _ hbody.2⟩
  refine Node.isPiece_nodeAt.2 fun c hc => ?_
  rcases List.mem_append.1 hc with hc | hc
  · exact isPiece_of_mem_commentNodes hc
  · exact hrest c hc

end Trees

section Lines

namespace Source

/-- The table of line breaks holds the number of line breaks before each offset. -/
theorem countBreaks_eq (cs : List Char) :
    countBreaks cs = ((List.range (cs.length + 1)).map fun i => (cs.take i).count '\n').toArray := by
  have hboth : cs.foldl (fun acc c =>
        let n := acc.2 + if c = '\n' then 1 else 0
        (acc.1.push n, n)) (#[0], 0) =
      (((List.range (cs.length + 1)).map fun i => (cs.take i).count '\n').toArray, cs.count '\n') := by
    induction cs using List.reverseRecOn with
    | nil => rfl
    | append_singleton cs c ih =>
      have hcount : (cs ++ [c]).count '\n' = cs.count '\n' + if c = '\n' then 1 else 0 := by
        simp [List.count_append, List.count_singleton]
      have hbefore : (List.range (cs.length + 1)).map (fun i => ((cs ++ [c]).take i).count '\n') =
          (List.range (cs.length + 1)).map fun i => (cs.take i).count '\n' := by
        refine List.map_congr_left fun i hi => ?_
        rw [List.take_append_of_le_length (by simpa [Nat.lt_succ_iff] using hi)]
      rw [List.foldl_append, ih, List.length_append, List.length_singleton, List.range_succ (n := cs.length + 1),
        List.map_append, hbefore]
      have hall : (cs ++ [c]).take (cs.length + 1) = cs ++ [c] := List.take_of_length_le (by simp)
      simp [hcount, hall]
  rw [countBreaks, hboth]

variable {dialect : Dialect} {text : String}

theorem lineAt_of_le
    {i : Nat}
    (h : i ≤ text.toList.length) :
    (ofText dialect text).lineAt i = (text.toList.take i).count '\n' + 1 := by
  simp [lineAt, ofText, countBreaks_eq, Nat.lt_succ_of_le h]

theorem lineAt_of_lt
    {i : Nat}
    (h : text.toList.length < i) :
    (ofText dialect text).lineAt i = 1 := by
  have hout : (List.range (text.toList.length + 1))[i]? = none := by simpa using h
  simp [lineAt, ofText, countBreaks_eq, hout]

theorem slice_ofText (start stop : Nat) :
    (ofText dialect text).slice start stop =
      String.ofList ((text.toList.drop start).take (stop - start)) := by
  simp [slice, ofText, List.extract_eq_take_drop]

/-- A slice of a text stands in it at its offset, behind as many line breaks as its line tells. A slice
from behind the text is empty, and counts as the first line. -/
theorem exists_split
    (dialect : Dialect)
    (text : String)
    (start stop : Nat) :
    ∃ before after, text = before ++ (ofText dialect text).slice start stop ++ after ∧
      ((ofText dialect text).slice start stop ≠ "" → before.toList.length = start) ∧
      (ofText dialect text).lineAt start = before.toList.count '\n' + 1 := by
  rw [slice_ofText]
  rcases Nat.lt_or_ge text.toList.length start with hlength | hlength
  · refine ⟨"", text, ?_, ?_, by simp [lineAt_of_lt hlength]⟩
    all_goals simp [List.drop_of_length_le hlength.le]
  · refine ⟨.ofList (text.toList.take start), .ofList ((text.toList.drop start).drop (stop - start)), ?_, ?_, ?_⟩
    · rw [String.append_assoc, ← String.ofList_append, ← String.ofList_append, List.take_append_drop,
        List.take_append_drop, String.ofList_toList]
    · rw [String.toList_ofList, List.length_take, Nat.min_eq_left hlength]
      exact fun _ => rfl
    · rw [lineAt_of_le hlength, String.toList_ofList]

end Source

namespace SourceFile

/-- A node of the tree of a file starts in a line: its text stands in the text of the file, at the offset
of the node if it is not empty, and behind one line break fewer. -/
structure StartsIn
    (f : SourceFile)
    (n : Node)
    (line : Nat) :
    Prop where
  mem : n ∈ f.root.subtree
  stands : ∃ before after, f.text = before ++ n.text ++ after ∧
    (n.text ≠ "" → before.toList.length = n.span.start) ∧ line = before.toList.count '\n' + 1

variable {f : SourceFile} {n : Node} {line : Nat}

theorem StartsIn.one_le (h : f.StartsIn n line) : 1 ≤ line := by
  obtain ⟨before, after, -, -, rfl⟩ := h.stands
  exact Nat.le_add_left 1 _

theorem StartsIn.le_lineCount (h : f.StartsIn n line) : line ≤ f.lineCount := by
  obtain ⟨before, after, htext, -, rfl⟩ := h.stands
  rw [lineCount, htext, String.append_assoc, String.toList_append, List.count_append]
  omega

/-- The nodes of the tree of a file start in their lines. -/
theorem startsIn_line
    {path : Files.Path}
    {text : String}
    (h : n ∈ (ofText path text).root.subtree) :
    (ofText path text).StartsIn n n.line := by
  have hcovers := isPiece_parse (dialectOf path) text n h
  obtain ⟨before, after, htext, hoffset, hline⟩ :=
    Source.exists_split (dialectOf path) text n.span.start n.span.stop
  rw [← hcovers.text_eq] at htext hoffset
  exact ⟨h, before, after, htext, hoffset, hcovers.line_eq.trans hline⟩

end SourceFile

end Lines

end RouteAtlas.Syntax
