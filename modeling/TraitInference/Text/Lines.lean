/-!
# TraitInference — text in lines

A text that contains line breaks is written on several lines. A carriage return
just before a break belongs to the break, and the blanks at the start of a line
do not count.
-/

namespace TraitInference.Text

/-- Whether a character only takes up space. -/
def isBlank (c : Char) : Bool :=
  (0x9 ≤ c.toNat && c.toNat ≤ 0xd) || (0x2000 ≤ c.toNat && c.toNat ≤ 0x200a) ||
    [0x20, 0x85, 0xa0, 0x1680, 0x2028, 0x2029, 0x202f, 0x205f, 0x3000].contains c.toNat

/-- The pieces of a text between its line feeds. -/
def pieces (cs : List Char) : List (List Char) :=
  cs.foldr (fun c rest =>
    if c = '\n' then [] :: rest
    else match rest with
      | [] => [[c]]
      | piece :: rest => (c :: piece) :: rest) [[]]

/-- A piece without the carriage return that may stand at its end. -/
def withoutReturn (piece : List Char) : List Char :=
  if piece.getLast? = some '\r' then piece.dropLast else piece

/-- The lines of a text. -/
def lines (s : String) : List String :=
  (pieces s.toList).map fun piece => String.ofList ((withoutReturn piece).dropWhile isBlank)

/-- A text without line feeds is a single piece. -/
theorem pieces_eq_singleton {cs : List Char} (h : '\n' ∉ cs) : pieces cs = [cs] := by
  induction cs with
  | nil => rfl
  | cons c cs ih =>
    have hFirst : c ≠ '\n' := fun hc => h (by simp [hc])
    have hRest : pieces cs = [cs] := ih fun hc => h (by simp [hc])
    simp only [pieces, List.foldr_cons, if_neg hFirst] at hRest ⊢
    rw [hRest]

end TraitInference.Text
