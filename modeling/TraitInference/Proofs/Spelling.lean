import Mathlib.Data.List.Basic
import TraitInference.Arena
import TraitInference.Ty.Printer

/-!
# TraitInference — the grammar of printed types

What the printer writes, without the faults that a missing name makes, and how the texts
are put together. There are two layers:

* A **phrase** is a row of atoms with blanks between them, and behind them an arrow and
  another phrase if it is a function (`Ty.Phrase`).
* An **atom** is a word, or phrases with semicolons between them in brackets
  (`Ty.Shape`). A phrase of several words becomes an atom in parentheses.

`Ty.text` is what is written where all names exist (`Ty.write_eq_text`), templates make
no difference to it (`Ty.text_erase`), and it follows the grammar (`Ty.Phrase.text_eq`,
`Ty.Shape.text_eq`). The types for which this works are the **legible** ones: they have
no points, no messages, and at every tag a number of children that it admits
(`Tag.admits`). A legible type is determined by its phrase and by its atom, up to
templates (`Ty.Phrase.erase_eq`, `Ty.Shape.erase_eq_of_enclosed`).
-/

namespace TraitInference

-- ---------------------------------------------------------------------------
-- Names
-- ---------------------------------------------------------------------------

/-- What a type refers to by name. -/
inductive Symbol
  | declaration (p : Point)
  | parameter (q : Parameter)
deriving DecidableEq

namespace Symbol

/-- A declaration is called by the text at its point, a parameter by its own name. -/
def name (a : Arena) : Symbol → Except Fault String
  | .declaration p => a.source p
  | .parameter q => .ok q.name

/-- The characters of the name, none if there is no name. -/
def letters (a : Arena) (s : Symbol) : List Char :=
  ((s.name a).toOption.getD "").toList

theorem letters_of_name {a : Arena} {s : Symbol} {name : String} (h : s.name a = .ok name) :
    s.letters a = name.toList := by
  rw [letters, h]
  rfl

end Symbol

/-- All symbols have a name. -/
def Arena.Names (a : Arena) (symbols : List Symbol) : Prop :=
  ∀ s ∈ symbols, ∃ name, s.name a = .ok name

namespace Tag

/-- What a tag refers to. -/
def symbol? : Tag → Option Symbol
  | .named declaration => some (.declaration declaration)
  | .parameter q => some (.parameter q)
  | _ => none

/-- What is written for a tag that stands for itself. -/
def word (a : Arena) : Tag → List Char
  | .intrinsic => ['i', 'n', 't', 'r', 'i', 'n', 's', 'i', 'c']
  | tag => tag.symbol?.elim [] (Symbol.letters a)

theorem word_intrinsic {a : Arena} : Tag.intrinsic.word a = "intrinsic".toList := by
  rw [word]
  decide +kernel

/-- What stands for a name is written as that name. -/
theorem word_of_symbol {a : Arena} {tag : Tag} {s : Symbol} (h : tag.symbol? = some s) :
    tag.word a = s.letters a := by
  cases tag <;> simp_all [word, symbol?]

/-- Whether a type with this tag can have `n` children and be read back. -/
def admits : Tag → Nat → Bool
  | .named _, _ => true
  | .parameter _, n => n == 0
  | .function, n => 2 ≤ n
  | .tuple, n => n != 1
  | .block, n => n ≤ 1
  | .intrinsic, n => n == 0
  | .message _, _ => false

end Tag

namespace Ty

mutual

/-- Whether a type has no points and no messages, and every part of it as many children
as its tag admits. -/
def isRegular : Ty → Bool
  | .point _ => false
  | .con tag children _ => tag.admits children.length && allRegular children

/-- Whether all of a row of types are regular. -/
def allRegular : List Ty → Bool
  | [] => true
  | t :: ts => t.isRegular && allRegular ts

end

mutual

/-- The declarations and parameters that occur in a type. -/
def symbols : Ty → List Symbol
  | .point _ => []
  | .con tag children _ => tag.symbol?.toList ++ symbolsOfAll children

/-- The declarations and parameters that occur in a row of types. -/
def symbolsOfAll : List Ty → List Symbol
  | [] => []
  | t :: ts => t.symbols ++ symbolsOfAll ts

end

theorem allRegular_iff {ts : List Ty} :
    allRegular ts = true ↔ ∀ t ∈ ts, t.isRegular = true := by
  induction ts with
  | nil => simp [allRegular]
  | cons t ts ih => simp [allRegular, ih]

theorem symbolsOfAll_subset {ts : List Ty} {known : List Symbol} :
    symbolsOfAll ts ⊆ known ↔ ∀ t ∈ ts, t.symbols ⊆ known := by
  induction ts with
  | nil => simp [symbolsOfAll]
  | cons t ts ih => simp [symbolsOfAll, ih]

/-- A regular type that refers to some of `known` only. -/
def Legible (known : List Symbol) (t : Ty) : Prop :=
  t.isRegular = true ∧ t.symbols ⊆ known

variable {a : Arena} {known : List Symbol} {place : Place} {t u : Ty} {ts us : List Ty}
  {r r' : List Char}

/-- Legible types are made of legible children. -/
theorem legible_con {tag : Tag} {emit : Option String} :
    (Ty.con tag ts emit).Legible known ↔ tag.admits ts.length = true ∧
      tag.symbol?.toList ⊆ known ∧ ∀ t ∈ ts, t.Legible known := by
  simp only [Legible, isRegular, symbols, Bool.and_eq_true, allRegular_iff,
    List.append_subset, symbolsOfAll_subset, forall_and]
  grind

-- ---------------------------------------------------------------------------
-- What is written where all names exist
-- ---------------------------------------------------------------------------

mutual

/-- The characters of a type. -/
def text (a : Arena) : Place → Ty → List Char
  | _, .point _ => ['_']
  | place, .con (.named declaration) children _ =>
    if children.isEmpty then (Tag.named declaration).word a
    else place.enclose ((Tag.named declaration).word a ++ spaced (textAll a .atom children))
  | _, .con (.parameter q) _ _ => (Tag.parameter q).word a
  | place, .con .function children _ =>
    place.enclose (argumentText (textAll a .atom children).dropLast ++ [' ', '-', '>', ' '] ++
      (textAll a .top children).getLastD ['_'])
  | _, .con .tuple children _ =>
    '(' :: [' ', ';', ' '].intercalate (textAll a .top children) ++ [')']
  | _, .con .block children _ => '\x7b' :: (textAll a .top children).flatten ++ ['\x7d']
  | _, .con .intrinsic _ _ => Tag.intrinsic.word a
  | _, .con (.message m) _ _ => Text.quoted m.toList

/-- The characters of each of a row of types. -/
def textAll (a : Arena) (place : Place) : List Ty → List (List Char)
  | [] => []
  | t :: ts => t.text a place :: textAll a place ts

end

theorem textAll_eq (ts : List Ty) : textAll a place ts = ts.map (text a place) := by
  induction ts with
  | nil => rfl
  | cons t ts ih => simp [textAll, ih]

mutual

/-- **Where all names exist, the printer writes `text`.** -/
theorem write_eq_text (hNamed : a.Names known) : ∀ (place : Place) (t : Ty),
    t.symbols ⊆ known → write a.source place t = .ok (t.text a place)
  | _, .point _, _ => by rw [write, text]
  | place, .con tag children emit, h => by
    rw [symbols, List.append_subset] at h
    have hRow (place : Place) := writeAll_eq_textAll hNamed place children h.2
    cases tag with
    | named declaration =>
      obtain ⟨name, hName⟩ := hNamed (.declaration declaration) (h.1 List.mem_cons_self)
      have hSource : a.source declaration = .ok name := hName
      rw [write, text, hSource, hRow, Tag.word_of_symbol rfl, Symbol.letters_of_name hName]
      cases children <;> rfl
    | parameter q => rw [write, text, Tag.word_of_symbol rfl, Symbol.letters_of_name rfl]
    -- the result is written as on the top level, the arguments as atoms
    | function =>
      rw [write, text, writeArrow_eq_textAll hNamed children h.2]
      rfl
    | tuple =>
      rw [write, text, hRow]
      rfl
    | block =>
      rw [write, text, hRow]
      rfl
    | intrinsic => rw [write, text, Tag.word_intrinsic]
    | message m => rw [write, text]

theorem writeAll_eq_textAll (hNamed : a.Names known) : ∀ (place : Place) (ts : List Ty),
    symbolsOfAll ts ⊆ known → writeAll a.source place ts = .ok (textAll a place ts)
  | _, [], _ => by rw [writeAll, textAll]
  | place, t :: ts, h => by
    rw [symbolsOfAll, List.append_subset] at h
    rw [writeAll, write_eq_text hNamed place t h.1, writeAll_eq_textAll hNamed place ts h.2,
      textAll]
    rfl

theorem writeArrow_eq_textAll (hNamed : a.Names known) : ∀ ts : List Ty,
    symbolsOfAll ts ⊆ known → writeArrow a.source ts =
      .ok ((textAll a .atom ts).dropLast, (textAll a .top ts).getLastD ['_'])
  | [], _ => by
    rw [writeArrow, textAll, textAll]
    rfl
  | [result], h => by
    rw [symbolsOfAll, List.append_subset] at h
    rw [writeArrow, write_eq_text hNamed .top result h.1]
    simp only [textAll]
    rfl
  | argument :: next :: rest, h => by
    rw [symbolsOfAll, List.append_subset] at h
    rw [writeArrow, write_eq_text hNamed .atom argument h.1,
      writeArrow_eq_textAll hNamed (next :: rest) h.2]
    simp only [textAll]
    rfl

end

theorem print_eq_text (hNamed : a.Names known) (h : t.symbols ⊆ known) :
    t.print a.source = .ok (String.ofList (t.text a .top)) := by
  rw [print, write_eq_text hNamed .top t h]
  rfl

mutual

/-- Templates are not written. -/
theorem text_erase : ∀ (place : Place) (t : Ty), t.erase.text a place = t.text a place
  | _, .point _ => by rw [erase]
  | place, .con tag children emit => by
    rw [erase]
    have hEmpty : (eraseAll children).isEmpty = children.isEmpty := by
      rw [eraseAll_eq, List.isEmpty_map]
    cases tag <;> simp only [text, textAll_eraseAll, hEmpty]

theorem textAll_eraseAll : ∀ (place : Place) (ts : List Ty),
    textAll a place (eraseAll ts) = textAll a place ts
  | _, [] => by rw [eraseAll]
  | place, t :: ts => by
    rw [eraseAll, textAll, textAll, text_erase place t, textAll_eraseAll place ts]

end

-- ---------------------------------------------------------------------------
-- Phrases and atoms
-- ---------------------------------------------------------------------------

/-- Parentheses and braces. -/
inductive Bracket
  | round
  | curly

namespace Bracket

def opening : Bracket → Char
  | .round => '('
  | .curly => '\x7b'

def closing : Bracket → Char
  | .round => ')'
  | .curly => '\x7d'

theorem opening_inj {b b' : Bracket} (h : b.opening = b'.opening) : b = b' := by
  cases b <;> cases b' <;> first | rfl | exact absurd h (by decide)

theorem isAlpha_opening (b : Bracket) : b.opening.isAlpha = false := by
  cases b <;> decide

theorem isAlpha_closing (b : Bracket) : b.closing.isAlpha = false := by
  cases b <;> decide

theorem closing_ne_opening (b b' : Bracket) : b.closing ≠ b'.opening := by
  cases b <;> cases b' <;> decide

end Bracket

/-- Whether a type is written in several words. -/
def isCompound : Ty → Bool
  | .con (.named _) children _ => !children.isEmpty
  | .con .function _ _ => true
  | _ => false

/-- One word needs no parentheses. -/
theorem text_of_not_isCompound (h : t.isCompound = false) :
    t.text a .top = t.text a .atom := by
  cases t with
  | point p => rw [text, text]
  | con tag children emit => cases tag <;> simp_all [isCompound, text]

/-- Several words get them. -/
theorem text_of_isCompound (h : t.isCompound = true) :
    t.text a .atom = '(' :: t.text a .top ++ [')'] := by
  cases t with
  | point p => simp [isCompound] at h
  | con tag children emit => cases tag <;> simp_all [isCompound, text, Place.enclose]

/-- A type is written as a row of atoms, and an arrow and a result if there is one. -/
inductive Phrase : Ty → List Ty → Option Ty → Prop
  | application (declaration : Point) (children : List Ty) (emit : Option String) :
    Phrase (.con (.named declaration) children emit)
      (.con (.named declaration) [] emit :: children) none
  | function (first : Ty) (arguments : List Ty) (result : Ty) (emit : Option String) :
    Phrase (.con .function (first :: arguments ++ [result]) emit) (first :: arguments)
      (some result)
  | single (t : Ty) (h : t.isCompound = false) : Phrase t [t] none

/-- How an atom is written: as one word, or as phrases between brackets. -/
inductive Atom
  | word (tag : Tag)
  | enclosed (bracket : Bracket) (phrases : List Ty)

namespace Atom

/-- The phrases between the brackets. -/
def phrases : Atom → List Ty
  | .word _ => []
  | .enclosed _ phrases => phrases

/-- The characters of an atom. -/
def text (a : Arena) : Atom → List Char
  | .word tag => tag.word a
  | .enclosed bracket phrases =>
    bracket.opening :: [' ', ';', ' '].intercalate (phrases.map (Ty.text a .top)) ++
      [bracket.closing]

end Atom

/-- How a type is written as an atom. The lengths matter: a tuple of one element would look
like a type in parentheses, and nothing stands between the children of a block. -/
inductive Shape : Ty → Atom → Prop
  | word (tag : Tag) (emit : Option String) (h : tag = .intrinsic ∨ tag.symbol?.isSome = true) :
    Shape (.con tag [] emit) (.word tag)
  | tuple (phrases : List Ty) (emit : Option String) (h : phrases.length ≠ 1) :
    Shape (.con .tuple phrases emit) (.enclosed .round phrases)
  | block (phrases : List Ty) (emit : Option String) (h : phrases.length ≤ 1) :
    Shape (.con .block phrases emit) (.enclosed .curly phrases)
  | compound (t : Ty) (h : t.isCompound = true) : Shape t (.enclosed .round [t])

/-- Every legible type can be written as an atom. -/
theorem Legible.exists_shape (h : t.Legible known) : ∃ x, t.Shape x := by
  cases t with
  | point p => simp [Legible, isRegular] at h
  | con tag children emit =>
    have hAdmits := (legible_con.mp h).1
    cases tag with
    | named declaration =>
      cases children with
      | nil => exact ⟨_, .word _ emit (.inr rfl)⟩
      | cons t ts => exact ⟨_, .compound _ rfl⟩
    | parameter q =>
      obtain rfl : children = [] := by simpa [Tag.admits] using hAdmits
      exact ⟨_, .word _ emit (.inr rfl)⟩
    | function => exact ⟨_, .compound _ rfl⟩
    | tuple => exact ⟨_, .tuple children emit (by simpa [Tag.admits] using hAdmits)⟩
    | block => exact ⟨_, .block children emit (by simpa [Tag.admits] using hAdmits)⟩
    | intrinsic =>
      obtain rfl : children = [] := by simpa [Tag.admits] using hAdmits
      exact ⟨_, .word _ emit (.inl rfl)⟩
    | message m => simp [Tag.admits] at hAdmits

/-- And as a phrase. -/
theorem Legible.exists_phrase (h : t.Legible known) : ∃ ts result, t.Phrase ts result := by
  cases hCompound : t.isCompound with
  | false => exact ⟨_, _, .single t hCompound⟩
  | true =>
    cases t with
    | point p => simp [isCompound] at hCompound
    | con tag children emit =>
      have hAdmits := (legible_con.mp h).1
      cases tag with
      | named declaration => exact ⟨_, _, .application declaration children emit⟩
      | function =>
        -- a function has a result and at least one argument
        have hTwo : 2 ≤ children.length := by simpa [Tag.admits] using hAdmits
        obtain rfl | ⟨arguments, result, rfl⟩ := List.eq_nil_or_concat' children
        · simp at hTwo
        · cases arguments with
          | nil => simp at hTwo
          | cons first rest => exact ⟨_, _, .function first rest result emit⟩
      | _ => simp [isCompound] at hCompound

/-- The parts of a legible phrase are legible. -/
theorem Phrase.legible {result : Option Ty} (hPhrase : t.Phrase ts result)
    (h : t.Legible known) : (∀ t' ∈ ts, t'.Legible known) ∧ ∀ t' ∈ result, t'.Legible known := by
  cases hPhrase with
  | application declaration children emit =>
    obtain ⟨-, hSymbol, hChildren⟩ := legible_con.mp h
    have hHead : (Ty.con (.named declaration) [] emit).Legible known :=
      legible_con.mpr ⟨rfl, hSymbol, by simp⟩
    exact ⟨List.forall_mem_cons.mpr ⟨hHead, hChildren⟩, by simp⟩
  | function first arguments result emit =>
    obtain ⟨-, -, hChildren⟩ := legible_con.mp h
    obtain ⟨hArguments, hResult⟩ := List.forall_mem_append.mp hChildren
    exact ⟨hArguments, by simpa using hResult⟩
  | single => simpa using h

/-- So are those between brackets. -/
theorem Shape.legible {x : Atom} (hShape : t.Shape x) (h : t.Legible known) :
    ∀ t' ∈ x.phrases, t'.Legible known := by
  cases hShape with
  | word => simp [Atom.phrases]
  | tuple => exact (legible_con.mp h).2.2
  | block => exact (legible_con.mp h).2.2
  | compound => simpa [Atom.phrases] using h

/-- The parts of a compound type are its children and the name in front of them. -/
theorem Phrase.mem_children {tag : Tag} {children : List Ty} {emit : Option String}
    {result : Option Ty} (h : (Ty.con tag children emit).Phrase ts result)
    (hCompound : (Ty.con tag children emit).isCompound = true) :
    (∀ t ∈ ts, t ∈ children ∨ t.Shape (.word tag)) ∧ ∀ t ∈ result, t ∈ children := by
  cases h with
  | application declaration =>
    refine ⟨List.forall_mem_cons.mpr ⟨.inr (.word _ emit (.inr rfl)), fun t ht => .inl ht⟩, ?_⟩
    simp
  | function => exact ⟨fun t ht => .inl (List.mem_append_left _ ht), by simp⟩
  | single _ hFalse => simp [hCompound] at hFalse

/-- The phrases in the brackets of any other type are its children. -/
theorem Shape.mem_children {tag : Tag} {children : List Ty} {emit : Option String} {x : Atom}
    (h : (Ty.con tag children emit).Shape x)
    (hSimple : (Ty.con tag children emit).isCompound = false) : ∀ t ∈ x.phrases, t ∈ children := by
  cases h with
  | word => simp [Atom.phrases]
  | tuple => exact fun t ht => ht
  | block => exact fun t ht => ht
  | compound _ hTrue => simp [hSimple] at hTrue

theorem intercalate_cons (separator x : List Char) (xs : List (List Char)) :
    separator.intercalate (x :: xs) = x ++ xs.flatMap (separator ++ ·) := by
  induction xs generalizing x with
  | nil => simp [List.intercalate]
  | cons y ys ih =>
    rw [List.flatMap_cons, List.append_assoc, ← ih y]
    simp [List.intercalate, List.intersperse]

/-- With one text at most there is nothing to separate. -/
theorem flatten_eq_intercalate (separator : List Char) {xs : List (List Char)}
    (h : xs.length ≤ 1) : xs.flatten = separator.intercalate xs := by
  cases xs with
  | nil => rfl
  | cons x xs =>
    obtain rfl : xs = [] := by simpa using h
    simp

/-- The arrow and the result behind the atoms of a phrase. -/
def arrowText (a : Arena) : Option Ty → List Char
  | none => []
  | some result => [' ', '-', '>', ' '] ++ result.text a .top

/-- The text of a phrase follows the grammar; the blank in front makes all atoms alike. -/
theorem Phrase.text_eq {result : Option Ty} (h : t.Phrase ts result) :
    ' ' :: t.text a .top = spaced (ts.map (text a .atom)) ++ arrowText a result := by
  cases h with
  | application declaration children emit =>
    cases children <;> simp [text, textAll_eq, spaced, arrowText, Place.enclose]
  | function first arguments result emit =>
    -- the last child is the result, all others are arguments
    have hArguments : (textAll a .atom (first :: arguments ++ [result])).dropLast =
        (first :: arguments).map (text a .atom) := by
      rw [textAll_eq, List.map_append]
      exact List.dropLast_concat
    have hResult : (textAll a .top (first :: arguments ++ [result])).getLastD ['_'] =
        result.text a .top := by
      rw [textAll_eq, List.map_append]
      exact List.getLastD_concat
    rw [text, hArguments, hResult]
    simp [spaced, arrowText, Place.enclose, argumentText, intercalate_cons]
  | single t h => simp [text_of_not_isCompound h, spaced, arrowText]

/-- So does that of an atom. -/
theorem Shape.text_eq {x : Atom} (h : t.Shape x) : t.text a .atom = x.text a := by
  cases h with
  | word tag emit h => cases tag <;> simp_all [text, Atom.text, Tag.symbol?]
  | tuple phrases emit => rw [text, Atom.text, textAll_eq, Bracket.opening, Bracket.closing]
  -- blocks write their children without separators, and have one at most
  | block phrases emit h =>
    rw [text, Atom.text, textAll_eq, flatten_eq_intercalate [' ', ';', ' '] (by simpa using h),
      Bracket.opening, Bracket.closing]
  | compound t h =>
    simp [text_of_isCompound h, Atom.text, Bracket.opening, Bracket.closing]

/-- A phrase determines its type. -/
theorem Phrase.erase_eq {result result' : Option Ty} (h : t.Phrase ts result)
    (h' : u.Phrase us result') (hRow : eraseAll ts = eraseAll us)
    (hResult : result.map erase = result'.map erase) : t.erase = u.erase := by
  cases h <;> cases h' <;> simp_all [erase, eraseAll_eq]

/-- An atom of one word determines its type. -/
theorem Shape.erase_eq_of_word {tag : Tag} (h : t.Shape (.word tag)) (h' : u.Shape (.word tag)) :
    t.erase = u.erase := by
  cases h
  cases h'
  rw [erase, erase]

/-- So do the phrases between brackets. -/
theorem Shape.erase_eq_of_enclosed {b : Bracket} (h : t.Shape (.enclosed b ts))
    (h' : u.Shape (.enclosed b us)) (hRow : eraseAll ts = eraseAll us) : t.erase = u.erase := by
  -- the numbers of phrases tell tuples from types in parentheses
  have hLength := congrArg List.length hRow
  rw [eraseAll_eq, eraseAll_eq, List.length_map, List.length_map] at hLength
  cases h <;> cases h' <;> simp_all [erase, eraseAll_eq]

end Ty

end TraitInference
