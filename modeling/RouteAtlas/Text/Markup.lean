import RouteAtlas.Text.Blank

/-!
# Marked-up texts

In a text for display, a word in square brackets that begins with a small letter or one of a few
signs stands for a style and is not shown. A backslash in front of it makes it stand for itself, and
a backslash in front of that for itself.
-/

namespace RouteAtlas.Text

section Tags

/-- Whether a tag may begin with a character. -/
def startsTag (c : Char) : Bool :=
  ('a' ≤ c && c ≤ 'z') || c = '#' || c = '/' || c = '@'

/-- Whether a character is no bracket. -/
def isNoBracket (c : Char) : Bool :=
  c != '[' && c != ']'

/-- A tag at the start of a text, with what comes after it. -/
def tag? : List Char → Option (List Char × List Char)
  | '[' :: c :: rest =>
    match startsTag c, rest.dropWhile isNoBracket with
    | true, ']' :: more => some ('[' :: c :: (rest.takeWhile isNoBracket ++ [']']), more)
    | _, _ => none
  | _ => none

theorem length_dropWhile_le
    (p : Char → Bool)
    (cs : List Char) :
    (cs.dropWhile p).length ≤ cs.length :=
  (List.dropWhile_sublist p).length_le

/-- What comes after a tag is shorter than the whole. -/
theorem length_lt_of_tag?
    {cs tag rest : List Char}
    (h : tag? cs = some (tag, rest)) :
    rest.length < cs.length := by
  unfold tag? at h
  split at h
  · rename_i c more
    have := length_dropWhile_le isNoBracket more
    split at h
    · rename_i heq
      simp only [Option.some.injEq, Prod.mk.injEq] at h
      rw [heq] at this
      simp only [List.length_cons] at this ⊢
      rw [← h.2]
      omega
    · simp at h
  · simp at h

end Tags

section Showing

/-- What is shown of a text. -/
def shownChars (cs : List Char) : List Char :=
  match cs with
  | [] => []
  | c :: rest =>
    let slashes := ((c :: rest).takeWhile (· = '\\')).length
    match _h : tag? ((c :: rest).dropWhile (· = '\\')) with
    | some (tag, more) =>
      List.replicate (slashes / 2) '\\' ++ (if slashes % 2 = 1 then tag else []) ++ shownChars more
    | none => c :: shownChars rest
  termination_by cs.length
  decreasing_by
    · have h₁ := length_lt_of_tag? _h
      have h₂ := length_dropWhile_le (· = '\\') (c :: rest)
      omega
    · simp

/-- What is shown of a text. -/
def shown (s : String) : String :=
  String.ofList (shownChars s.toList)

end Showing

end RouteAtlas.Text
