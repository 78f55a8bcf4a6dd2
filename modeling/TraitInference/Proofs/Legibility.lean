import TraitInference.Proofs.Spelling

/-!
# TraitInference — printed types can be read back

Blanks stand between the children of a nominal type and between the arguments of a
function, parentheses around tuples and around whatever is written in several words, and
the result of a function has no parentheses of its own. Nevertheless a text is the text
of one type at most, up to templates, if the types are regular and their names are words
that tell declarations and parameters apart (`Arena.Distinguishes`).

The proof follows the grammar. A word ends where no letter comes next (`Ty.EndsWord`), a
row of atoms at an arrow or with its phrase (`Ty.EndsRow`), a phrase where a bracket
closes or a semicolon comes (`Ty.Closes`), and none of these can be the beginning of a
further atom (`Ty.Opens`).

* `Ty.Readable` — a text with something behind it can be divided in one way only.
* `Ty.Separates.row_inj` — rows of readable types are readable.
* `Ty.readable_top`, `Ty.readable_atom` — so are phrases and atoms of readable parts.
* `Ty.readable` — so is every legible type, by induction on it.
-/

namespace TraitInference

/-- A name of ASCII letters that is not taken for the intrinsic type. -/
def isWord (name : String) : Bool :=
  !name.toList.isEmpty && name.toList.all Char.isAlpha && name != "intrinsic"

/-- The symbols are called by words, and no two by the same. -/
structure Arena.Distinguishes (a : Arena) (symbols : List Symbol) : Prop where
  words : ∀ s ∈ symbols, ∃ name, s.name a = .ok name ∧ isWord name = true
  apart : ∀ s ∈ symbols, ∀ s' ∈ symbols, s.name a = s'.name a → s = s'

namespace Ty

variable {known : List Symbol} {t : Ty} {r r' : List Char}

-- ---------------------------------------------------------------------------
-- What can come behind a text
-- ---------------------------------------------------------------------------

/-- No letter comes next. -/
def EndsWord (r : List Char) : Prop :=
  ∀ c ∈ r.head?, c.isAlpha = false

/-- Here a phrase ends: with the text, at a bracket or at a semicolon. -/
inductive Closes : List Char → Prop
  | done : Closes []
  | bracket (b : Bracket) (r : List Char) : Closes (b.closing :: r)
  | semicolon (r : List Char) : Closes (' ' :: ';' :: r)

/-- Here a row of atoms ends: with the phrase or at an arrow. -/
def EndsRow (r : List Char) : Prop :=
  Closes r ∨ ∃ r', r = ' ' :: '-' :: r'

/-- Here a phrase begins. -/
def Opens (x : List Char) : Prop :=
  ∃ c rest, x = c :: rest ∧ (c.isAlpha = true ∨ ∃ b : Bracket, c = b.opening)

/-- What may come behind a type at a place. -/
def Place.Follows : Place → List Char → Prop
  | .top => Closes
  | .atom => EndsWord

theorem endsWord_cons {c : Char} (h : c.isAlpha = false) : EndsWord (c :: r) := by
  simpa [EndsWord] using h

/-- Where a row ends, so does its last word. -/
theorem EndsRow.endsWord (h : EndsRow r) : EndsWord r := by
  obtain hCloses | ⟨r', rfl⟩ := h
  · cases hCloses with
    | done => simp [EndsWord]
    | bracket b => exact endsWord_cons b.isAlpha_closing
    | semicolon => exact endsWord_cons (by decide)
  · exact endsWord_cons (by decide)

/-- What opens a text opens a longer one. -/
theorem Opens.append (h : Opens r) (r' : List Char) : Opens (r ++ r') := by
  obtain ⟨c, rest, rfl, hc⟩ := h
  exact ⟨c, rest ++ r', rfl, hc⟩

/-- What neither is a letter nor opens a bracket begins no phrase. -/
theorem not_opens_cons {c : Char} (hAlpha : c.isAlpha = false)
    (hOpening : ∀ b : Bracket, c ≠ b.opening) : ¬ Opens (c :: r) := by
  rintro ⟨c', rest, hEq, hc⟩
  obtain ⟨rfl, -⟩ := List.cons.inj hEq
  obtain hTrue | ⟨b, hEq⟩ := hc
  · simp [hAlpha] at hTrue
  · exact hOpening b hEq

/-- A word ends at the first character that is no letter. -/
theorem word_append_inj {w w' : List Char} (hw : ∀ c ∈ w, c.isAlpha = true)
    (hw' : ∀ c ∈ w', c.isAlpha = true) (hr : EndsWord r) (hr' : EndsWord r')
    (hEq : w ++ r = w' ++ r') : w = w' ∧ r = r' := by
  induction w generalizing w' with
  | nil =>
    cases w' with
    | nil => exact ⟨rfl, hEq⟩
    | cons c w' =>
      have hFalse : c.isAlpha = false := hr c (by rw [← List.nil_append r, hEq]; rfl)
      simp_all
  | cons c w ih =>
    cases w' with
    | nil =>
      have hFalse : c.isAlpha = false := hr' c (by rw [← List.nil_append r', ← hEq]; rfl)
      simp_all
    | cons c' w' =>
      obtain ⟨rfl, hRest⟩ := List.cons.inj hEq
      obtain ⟨rfl, rfl⟩ := ih (fun x hx => hw x (List.mem_cons_of_mem _ hx))
        (fun x hx => hw' x (List.mem_cons_of_mem _ hx)) hRest
      exact ⟨rfl, rfl⟩

-- ---------------------------------------------------------------------------
-- Words
-- ---------------------------------------------------------------------------

/-- What a word stands for is known. -/
theorem Shape.symbol_mem {tag : Tag} (hShape : t.Shape (.word tag)) (h : t.Legible known) :
    tag = .intrinsic ∨ ∃ s ∈ known, tag.symbol? = some s := by
  cases hShape with
  | word _ emit hTag =>
    obtain rfl | hSome := hTag
    · exact .inl rfl
    · obtain ⟨s, hs⟩ := Option.isSome_iff_exists.mp hSome
      exact .inr ⟨s, (legible_con.mp h).2.1 (by simp [hs]), hs⟩

end Ty

/-- A symbol belongs to one tag. -/
theorem Tag.eq_of_symbol {tag tag' : Tag} {s : Symbol} (h : tag.symbol? = some s)
    (h' : tag'.symbol? = some s) : tag = tag' := by
  cases tag <;> cases tag' <;> grind [Tag.symbol?]

namespace Arena.Distinguishes

variable {a : Arena} {known : List Symbol} {s s' : Symbol} {tag tag' : Tag} {t u : Ty}

/-- What is distinguished has a name. -/
theorem names (hNames : a.Distinguishes known) : a.Names known := by
  intro s hs
  obtain ⟨name, hName, -⟩ := hNames.words s hs
  exact ⟨name, hName⟩

/-- A name is not empty, consists of letters and is not the intrinsic type. -/
theorem letters (hNames : a.Distinguishes known) (hs : s ∈ known) :
    s.letters a ≠ [] ∧ (∀ c ∈ s.letters a, c.isAlpha = true) ∧
      s.letters a ≠ "intrinsic".toList := by
  obtain ⟨name, hName, hWord⟩ := hNames.words s hs
  rw [Symbol.letters_of_name hName, Ne, Ne, String.toList_inj]
  simpa [isWord, and_assoc] using hWord

/-- Symbols with the same letters are the same. -/
theorem letters_inj (hNames : a.Distinguishes known) (hs : s ∈ known) (hs' : s' ∈ known)
    (hEq : s.letters a = s'.letters a) : s = s' := by
  obtain ⟨name, hName, -⟩ := hNames.words s hs
  obtain ⟨name', hName', -⟩ := hNames.words s' hs'
  rw [Symbol.letters_of_name hName, Symbol.letters_of_name hName'] at hEq
  obtain rfl := String.toList_inj.mp hEq
  exact hNames.apart s hs s' hs' (hName.trans hName'.symm)

/-- So a word consists of letters too. -/
theorem word (hNames : a.Distinguishes known) (ht : t.Legible known) (h : t.Shape (.word tag)) :
    tag.word a ≠ [] ∧ ∀ c ∈ tag.word a, c.isAlpha = true := by
  obtain rfl | ⟨s, hs, hTag⟩ := h.symbol_mem ht
  · rw [Tag.word]
    exact ⟨List.cons_ne_nil _ _, List.all_eq_true.mp rfl⟩
  · rw [Tag.word_of_symbol hTag]
    exact ⟨(hNames.letters hs).1, (hNames.letters hs).2.1⟩

/-- Tags with the same word are the same. -/
theorem word_inj (hNames : a.Distinguishes known) (ht : t.Legible known) (hu : u.Legible known)
    (h : t.Shape (.word tag)) (h' : u.Shape (.word tag')) (hEq : tag.word a = tag'.word a) :
    tag = tag' := by
  obtain rfl | ⟨s, hs, hTag⟩ := h.symbol_mem ht <;>
    obtain rfl | ⟨s', hs', hTag'⟩ := h'.symbol_mem hu
  · rfl
  · rw [Tag.word_intrinsic, Tag.word_of_symbol hTag'] at hEq
    exact absurd hEq.symm (hNames.letters hs').2.2
  · rw [Tag.word_intrinsic, Tag.word_of_symbol hTag] at hEq
    exact absurd hEq (hNames.letters hs).2.2
  · rw [Tag.word_of_symbol hTag, Tag.word_of_symbol hTag'] at hEq
    obtain rfl := hNames.letters_inj hs hs' hEq
    exact Tag.eq_of_symbol hTag hTag'

/-- A text that begins with a word begins with a letter. -/
theorem isAlpha_of_word_append (hNames : a.Distinguishes known) (ht : t.Legible known)
    (h : t.Shape (.word tag)) {c : Char} {r r' : List Char} (hEq : tag.word a ++ r = c :: r') :
    c.isAlpha = true := by
  obtain ⟨hNil, hAlpha⟩ := hNames.word ht h
  obtain ⟨c', w, hWord⟩ := List.exists_cons_of_ne_nil hNil
  rw [hWord] at hEq hAlpha
  obtain ⟨rfl, -⟩ := List.cons.inj hEq
  exact hAlpha _ List.mem_cons_self

end Arena.Distinguishes

namespace Ty

variable {a : Arena} {known : List Symbol} {place : Place} {t u : Ty} {ts us : List Ty}
  {r r' : List Char}

/-- Every atom begins with a letter or an opening bracket. -/
theorem opens_atom (hNames : a.Distinguishes known) (h : t.Legible known) :
    Opens (t.text a .atom) := by
  obtain ⟨x, hShape⟩ := h.exists_shape
  rw [hShape.text_eq]
  cases x with
  | word tag =>
    obtain ⟨hNil, hAlpha⟩ := hNames.word h hShape
    obtain ⟨c, w, hWord⟩ := List.exists_cons_of_ne_nil hNil
    exact ⟨c, w, hWord, .inl (hAlpha c (by simp [hWord]))⟩
  | enclosed b phrases => exact ⟨_, _, rfl, .inr ⟨b, rfl⟩⟩

/-- So does every phrase, as it begins with an atom. -/
theorem opens_text (hNames : a.Distinguishes known) (h : t.Legible known) :
    ∀ place, Opens (t.text a place)
  | .atom => opens_atom hNames h
  | .top => by
    obtain ⟨ts, result, hPhrase⟩ := h.exists_phrase
    have hText := hPhrase.text_eq (a := a)
    obtain ⟨first, rest, rfl⟩ : ∃ first rest, ts = first :: rest := by
      cases hPhrase <;> exact ⟨_, _, rfl⟩
    have hOpens := opens_atom hNames ((hPhrase.legible h).1 first List.mem_cons_self)
    simp only [spaced, List.map_cons, List.flatMap_cons, List.cons_append, List.cons.injEq,
      true_and, List.append_assoc] at hText
    rw [hText]
    exact hOpens.append _

-- ---------------------------------------------------------------------------
-- Rows
-- ---------------------------------------------------------------------------

/-- Only one type, up to templates, has this text at this place, whatever comes behind. -/
def Readable (a : Arena) (known : List Symbol) (place : Place) (t : Ty) : Prop :=
  ∀ ⦃u : Ty⦄ ⦃r r' : List Char⦄, u.Legible known → place.Follows r → place.Follows r' →
    t.text a place ++ r = u.text a place ++ r' → t.erase = u.erase ∧ r = r'

/-- A separator keeps the types of a row apart, and cannot be taken for the end of it. -/
structure Separates (place : Place) (separator : List Char) (Ends : List Char → Prop) : Prop where
  follows : ∀ {r}, Ends r → place.Follows r
  next : ∀ r, place.Follows (separator ++ r)
  apart : ∀ {r x}, Ends r → Opens x → r ≠ separator ++ x

/-- Blanks separate atoms: what ends a row has no letter and no bracket behind its blank. -/
theorem separates_blank : Separates .atom [' '] EndsRow where
  follows := EndsRow.endsWord
  next _ := endsWord_cons (by decide)
  apart := by
    rintro _ x (hCloses | ⟨r, rfl⟩) hOpens hEq
    · cases hCloses with
      | done => cases hEq
      | bracket b => cases b <;> cases hEq
      | semicolon r =>
        obtain rfl := (List.cons.inj hEq).2
        exact not_opens_cons (by decide) (by rintro (_ | _) <;> decide) hOpens
    · obtain rfl := (List.cons.inj hEq).2
      exact not_opens_cons (by decide) (by rintro (_ | _) <;> decide) hOpens

/-- Semicolons separate the phrases in a bracket. -/
theorem separates_semicolon (b : Bracket) :
    Separates .top [' ', ';', ' '] (∃ r, · = b.closing :: r) where
  follows := by
    rintro _ ⟨r, rfl⟩
    exact .bracket b r
  next r := .semicolon (' ' :: r)
  apart := by
    rintro _ x ⟨r, rfl⟩ - hEq
    cases b <;> cases hEq

variable {separator : List Char} {Ends : List Char → Prop}

/-- What stands behind the first type of a row. -/
theorem Separates.follows_row (h : Separates place separator Ends) (hr : Ends r) :
    ∀ ts : List Ty, place.Follows ((ts.map (text a place)).flatMap (separator ++ ·) ++ r)
  | [] => h.follows hr
  | t :: ts => by
    rw [List.map_cons, List.flatMap_cons, List.append_assoc, List.append_assoc]
    exact h.next _

/-- **Rows of readable types are readable.** -/
theorem Separates.row_inj (h : Separates place separator Ends) (hNames : a.Distinguishes known)
    (hts : ∀ t ∈ ts, t.Legible known) (hReadable : ∀ t ∈ ts, t.Readable a known place)
    (hus : ∀ u ∈ us, u.Legible known) (hr : Ends r) (hr' : Ends r')
    (hEq : (ts.map (text a place)).flatMap (separator ++ ·) ++ r =
      (us.map (text a place)).flatMap (separator ++ ·) ++ r') :
    eraseAll ts = eraseAll us ∧ r = r' := by
  induction ts generalizing us with
  | nil =>
    cases us with
    | nil => exact ⟨rfl, hEq⟩
    | cons u us =>
      have hOpens := opens_text hNames (hus u List.mem_cons_self) place
      simp only [List.map_cons, List.flatMap_cons, List.append_assoc] at hEq
      exact absurd hEq (h.apart hr (hOpens.append _))
  | cons t ts ih =>
    obtain ⟨ht, hts⟩ := List.forall_mem_cons.mp hts
    obtain ⟨hFirst, hReadable⟩ := List.forall_mem_cons.mp hReadable
    cases us with
    | nil =>
      have hOpens := opens_text hNames ht place
      simp only [List.map_cons, List.flatMap_cons, List.append_assoc] at hEq
      exact absurd hEq.symm (h.apart hr' (hOpens.append _))
    | cons u us =>
      obtain ⟨hu, hus⟩ := List.forall_mem_cons.mp hus
      simp only [List.map_cons, List.flatMap_cons, List.append_assoc] at hEq
      -- behind the separator both rows go on with a type, and the first one can be read
      obtain ⟨hErase, hRest⟩ := hFirst hu (h.follows_row hr ts) (h.follows_row hr' us)
        (List.append_cancel_left hEq)
      obtain ⟨hRow, hEnd⟩ := ih hts hReadable hus hRest
      exact ⟨by rw [eraseAll, eraseAll, hErase, hRow], hEnd⟩

/-- **Phrases between brackets are readable.** -/
theorem phrases_inj (hNames : a.Distinguishes known) (b : Bracket)
    (hts : ∀ t ∈ ts, t.Legible known) (hReadable : ∀ t ∈ ts, t.Readable a known .top)
    (hus : ∀ u ∈ us, u.Legible known)
    (hEq : [' ', ';', ' '].intercalate (ts.map (text a .top)) ++ b.closing :: r =
      [' ', ';', ' '].intercalate (us.map (text a .top)) ++ b.closing :: r') :
    eraseAll ts = eraseAll us ∧ r = r' := by
  -- where the bracket closes at once, there is no phrase in it
  have hEmpty {u : Ty} (hu : u.Legible known) {x y : List Char} :
      b.closing :: x ≠ u.text a .top ++ y := by
    intro hEq
    have hOpens := (opens_text hNames hu .top).append y
    rw [← hEq] at hOpens
    exact not_opens_cons b.isAlpha_closing b.closing_ne_opening hOpens
  cases ts with
  | nil =>
    cases us with
    | nil => exact ⟨rfl, (List.cons.inj hEq).2⟩
    | cons u us =>
      rw [List.map_cons, intercalate_cons, List.append_assoc] at hEq
      exact absurd hEq (hEmpty (hus u List.mem_cons_self))
  | cons t ts =>
    obtain ⟨ht, hts⟩ := List.forall_mem_cons.mp hts
    obtain ⟨hFirst, hReadable⟩ := List.forall_mem_cons.mp hReadable
    rw [List.map_cons, intercalate_cons, List.append_assoc] at hEq
    cases us with
    | nil => exact absurd hEq.symm (hEmpty ht)
    | cons u us =>
      obtain ⟨hu, hus⟩ := List.forall_mem_cons.mp hus
      rw [List.map_cons, intercalate_cons, List.append_assoc] at hEq
      have hSep := separates_semicolon b
      obtain ⟨hErase, hRest⟩ := hFirst hu (hSep.follows_row ⟨r, rfl⟩ ts)
        (hSep.follows_row ⟨r', rfl⟩ us) hEq
      obtain ⟨hRow, hEnd⟩ := hSep.row_inj hNames hts hReadable hus ⟨r, rfl⟩ ⟨r', rfl⟩ hRest
      exact ⟨by rw [eraseAll, eraseAll, hErase, hRow], (List.cons.inj hEnd).2⟩

-- ---------------------------------------------------------------------------
-- Types
-- ---------------------------------------------------------------------------

/-- Whether or not there is a result, the atoms in front of it end. -/
theorem endsRow_arrowText (hr : Closes r) : ∀ result, EndsRow (arrowText a result ++ r)
  | none => .inl hr
  | some _ => .inr ⟨_, rfl⟩

/-- No phrase goes on with an arrow where it closes. -/
theorem Closes.ne_arrow (h : Closes r) {x : List Char} : r ≠ ' ' :: '-' :: x := by
  cases h with
  | done => simp
  | bracket b => cases b <;> simp [Bracket.closing]
  | semicolon => simp

/-- What stands behind the atoms of a phrase. -/
theorem arrow_inj {result result' : Option Ty} (hResult : ∀ t ∈ result, t.Readable a known .top)
    (hLegible : ∀ u ∈ result', u.Legible known) (hr : Closes r) (hr' : Closes r')
    (hEq : arrowText a result ++ r = arrowText a result' ++ r') :
    result.map erase = result'.map erase ∧ r = r' := by
  cases result with
  | none =>
    cases result' with
    | none => exact ⟨rfl, hEq⟩
    | some u => exact absurd hEq hr.ne_arrow
  | some t =>
    cases result' with
    | none => exact absurd hEq.symm hr'.ne_arrow
    | some u =>
      obtain ⟨hErase, hEnd⟩ := hResult t rfl (hLegible u rfl) hr hr'
        (by simpa [arrowText] using hEq)
      exact ⟨by rw [Option.map_some, Option.map_some, hErase], hEnd⟩

/-- **A phrase of readable parts is readable.** -/
theorem readable_top (hNames : a.Distinguishes known) (h : t.Legible known)
    {result : Option Ty} (hPhrase : t.Phrase ts result)
    (hRow : ∀ t ∈ ts, t.Readable a known .atom)
    (hResult : ∀ t ∈ result, t.Readable a known .top) : t.Readable a known .top := by
  intro u r r' hu hr hr' hEq
  obtain ⟨us, result', hPhrase'⟩ := hu.exists_phrase
  -- a blank in front of both texts makes rows of them, in which every atom has one
  have hSpaced : spaced (ts.map (text a .atom)) ++ (arrowText a result ++ r) =
      spaced (us.map (text a .atom)) ++ (arrowText a result' ++ r') := by
    rw [← List.append_assoc, ← hPhrase.text_eq, ← List.append_assoc, ← hPhrase'.text_eq,
      List.cons_append, hEq, List.cons_append]
  obtain ⟨hErase, hRest⟩ := separates_blank.row_inj hNames (hPhrase.legible h).1 hRow
    (hPhrase'.legible hu).1 (endsRow_arrowText hr result) (endsRow_arrowText hr' result') hSpaced
  obtain ⟨hResults, hEnd⟩ := arrow_inj hResult (hPhrase'.legible hu).2 hr hr' hRest
  exact ⟨hPhrase.erase_eq hPhrase' hErase hResults, hEnd⟩

/-- **An atom of readable phrases is readable.** -/
theorem readable_atom (hNames : a.Distinguishes known) (h : t.Legible known) {x : Atom}
    (hShape : t.Shape x) (hPhrases : ∀ t ∈ x.phrases, t.Readable a known .top) :
    t.Readable a known .atom := by
  intro u r r' hu hr hr' hEq
  obtain ⟨y, hShape'⟩ := hu.exists_shape
  rw [hShape.text_eq, hShape'.text_eq] at hEq
  have hLegible := hShape.legible h
  have hLegible' := hShape'.legible hu
  cases x with
  | word tag =>
    cases y with
    | word tag' =>
      obtain ⟨hWord, hEnd⟩ := word_append_inj (hNames.word h hShape).2 (hNames.word hu hShape').2
        hr hr' hEq
      obtain rfl := hNames.word_inj h hu hShape hShape' hWord
      exact ⟨hShape.erase_eq_of_word hShape', hEnd⟩
    | enclosed b us =>
      -- a word cannot begin with a bracket
      have hAlpha := hNames.isAlpha_of_word_append h hShape hEq
      simp [b.isAlpha_opening] at hAlpha
  | enclosed b ts =>
    cases y with
    | word tag =>
      have hAlpha := hNames.isAlpha_of_word_append hu hShape' hEq.symm
      simp [b.isAlpha_opening] at hAlpha
    | enclosed b' us =>
      simp only [Atom.text, List.cons_append, List.append_assoc, List.nil_append,
        List.cons.injEq] at hEq
      obtain ⟨hOpening, hEq⟩ := hEq
      obtain rfl := Bracket.opening_inj hOpening
      obtain ⟨hRow, hEnd⟩ := phrases_inj hNames b hLegible hPhrases hLegible' hEq
      exact ⟨hShape.erase_eq_of_enclosed hShape' hRow, hEnd⟩

mutual

/-- **Legible types are readable**, at both places. -/
theorem readable (hNames : a.Distinguishes known) : ∀ t : Ty, t.Legible known →
    t.Readable a known .top ∧ t.Readable a known .atom
  | .point _, h => by simp [Legible, isRegular] at h
  | .con tag children emit, h => by
    have hChildren := readableAll hNames children (legible_con.mp h).2.2
    cases hCompound : (Ty.con tag children emit).isCompound with
    | false =>
      -- an atom by its children, and a phrase as a row of this one atom
      obtain ⟨x, hShape⟩ := h.exists_shape
      have hAtom : (Ty.con tag children emit).Readable a known .atom :=
        readable_atom hNames h hShape fun t ht =>
          (hChildren t (hShape.mem_children hCompound t ht)).1
      exact ⟨readable_top hNames h (.single _ hCompound) (by simpa using hAtom) (by simp), hAtom⟩
    | true =>
      -- a phrase by its children, and an atom as this phrase in parentheses
      obtain ⟨ts, result, hPhrase⟩ := h.exists_phrase
      obtain ⟨hRow, hResult⟩ := hPhrase.mem_children hCompound
      have hTop : (Ty.con tag children emit).Readable a known .top := by
        refine readable_top hNames h hPhrase (fun t ht => ?_) fun t ht =>
          (hChildren t (hResult t ht)).1
        obtain hChild | hWord := hRow t ht
        · exact (hChildren t hChild).2
        · exact readable_atom hNames ((hPhrase.legible h).1 t ht) hWord (by simp [Atom.phrases])
      have hAtom := readable_atom hNames h (.compound _ hCompound)
        (by simpa [Atom.phrases] using hTop)
      exact ⟨hTop, hAtom⟩

theorem readableAll (hNames : a.Distinguishes known) : ∀ ts : List Ty,
    (∀ t ∈ ts, t.Legible known) → ∀ t ∈ ts, t.Readable a known .top ∧ t.Readable a known .atom
  | [], _ => by simp
  | t :: ts, h => by
    obtain ⟨ht, hts⟩ := List.forall_mem_cons.mp h
    exact List.forall_mem_cons.mpr ⟨readable hNames t ht, readableAll hNames ts hts⟩

end

-- ---------------------------------------------------------------------------
-- Printing
-- ---------------------------------------------------------------------------

/-- **Printed types are unambiguous.** Regular types can be printed, and the texts are equal
exactly if the types are the same up to templates, provided that the names of all that occurs
in them are words of their own. -/
theorem print_eq_iff_same (ht : t.isRegular = true) (hu : u.isRegular = true)
    (hNames : a.Distinguishes (t.symbols ++ u.symbols)) :
    ∃ x y, t.print a.source = .ok x ∧ u.print a.source = .ok y ∧
      (x = y ↔ t.same u = true) := by
  have hSubset : t.symbols ⊆ t.symbols ++ u.symbols := List.subset_append_left _ _
  have hSubset' : u.symbols ⊆ t.symbols ++ u.symbols := List.subset_append_right _ _
  refine ⟨_, _, print_eq_text hNames.names hSubset, print_eq_text hNames.names hSubset', ?_⟩
  rw [same_iff, String.ofList_inj]
  constructor
  · intro hEq
    exact ((readable hNames t ⟨ht, hSubset⟩).1 ⟨hu, hSubset'⟩ .done .done
      (congrArg (· ++ []) hEq)).1
  · -- templates are not printed
    intro hErase
    rw [← text_erase .top t, hErase, text_erase]

/-- An arena with one declaration. -/
def oneDeclaration : Arena where
  sites := #[{ span := ⟨0, 5⟩, source := "Maybe" }]

def element : Ty := .con (.parameter ⟨0, "A", ⟨0⟩, false⟩) [] none

def maybe (children : List Ty) : Ty := .con (.named ⟨0⟩) children none

def pair : Ty := .con .tuple [element, maybe []] none

def intrinsicBlock : Ty := .con .block [.con .intrinsic [] none] none

/-- Written as `(Maybe A) -> (A ; Maybe) -> …`. -/
def givingFunction : Ty :=
  .con .function [maybe [element], .con .function [pair, intrinsicBlock] none] none

/-- Written as `((Maybe A) -> (A ; Maybe)) -> …`. -/
def takingFunction : Ty :=
  .con .function [.con .function [maybe [element], pair] none, intrinsicBlock] none

/-- The two names that occur are two words. -/
theorem distinguishes_oneDeclaration :
    oneDeclaration.Distinguishes (givingFunction.symbols ++ takingFunction.symbols) where
  words := by
    have hSymbols : ∀ s ∈ givingFunction.symbols ++ takingFunction.symbols,
        s = .declaration ⟨0⟩ ∨ s = .parameter ⟨0, "A", ⟨0⟩, false⟩ := by decide
    intro s hs
    obtain rfl | rfl := hSymbols s hs
    · exact ⟨"Maybe", rfl, by decide⟩
    · exact ⟨"A", rfl, by decide⟩
  apart := by decide

/-- The same words in the same order, but two types and two texts. -/
theorem print_eq_iff_same_arrows :
    givingFunction.isRegular = true ∧ takingFunction.isRegular = true ∧
    oneDeclaration.Distinguishes (givingFunction.symbols ++ takingFunction.symbols) ∧
    givingFunction.same takingFunction = false ∧
    ∃ x y, givingFunction.print oneDeclaration.source = .ok x ∧
      takingFunction.print oneDeclaration.source = .ok y ∧ x ≠ y := by
  have hRegular : givingFunction.isRegular = true := by decide
  have hRegular' : takingFunction.isRegular = true := by decide
  have hOther : givingFunction.same takingFunction = false := by decide
  obtain ⟨x, y, hx, hy, hIff⟩ :=
    print_eq_iff_same hRegular hRegular' distinguishes_oneDeclaration
  refine ⟨hRegular, hRegular', distinguishes_oneDeclaration, hOther, x, y, hx, hy, fun hEq => ?_⟩
  rw [hIff.mp hEq] at hOther
  cases hOther

end Ty

end TraitInference
