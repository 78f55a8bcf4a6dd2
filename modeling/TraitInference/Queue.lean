/-!
# TraitInference — queues

First in, first out. The elements are kept in two lists, the older ones in the
order in which they leave and the newer ones behind them in the opposite order,
so that adding and removing an element takes constant time on average, and so
does asking for their number.

`Queue.toList` is the view through which queues are understood; the lemmas say
what each operation does to it.
-/

namespace TraitInference

/-- A queue of elements of `α`. -/
structure Queue (α : Type) where
  /-- The older elements, oldest first. -/
  front : List α := []
  /-- The newer elements, newest first. -/
  back : List α := []
  /-- The number of elements. -/
  size : Nat := 0
  size_eq_lengths : size = front.length + back.length := by rfl

namespace Queue

variable {α : Type}

/-- The elements, oldest first. -/
def toList (q : Queue α) : List α :=
  q.front ++ q.back.reverse

/-- Adds an element behind the others. -/
def push (q : Queue α) (a : α) : Queue α where
  front := q.front
  back := a :: q.back
  size := q.size + 1
  size_eq_lengths := by simp [q.size_eq_lengths, Nat.add_assoc]

/-- A queue of the elements of a list, the first of them the oldest. -/
def ofList (as : List α) : Queue α where
  front := as
  size := as.length
  size_eq_lengths := rfl

/-- The oldest element, and what is left. -/
def pop (q : Queue α) : Option (α × Queue α) :=
  match q with
  | ⟨a :: front, back, size, h⟩ =>
    some (a, ⟨front, back, size - 1, by simp only [h, List.length_cons]; omega⟩)
  | ⟨[], back, _, _⟩ =>
    match back.reverse with
    | [] => none
    | a :: front => some (a, ofList front)

-- ---------------------------------------------------------------------------
-- The view
-- ---------------------------------------------------------------------------

@[simp]
theorem toList_empty : ({} : Queue α).toList = [] := rfl

@[simp]
theorem toList_push (q : Queue α) (a : α) : (q.push a).toList = q.toList ++ [a] := by
  simp [toList, push]

@[simp]
theorem toList_ofList (as : List α) : (ofList as).toList = as := by
  simp [toList, ofList]

theorem size_eq_length (q : Queue α) : q.size = q.toList.length := by
  simp [toList, q.size_eq_lengths]

/-- **What leaves is the head of the view**, and what is left is its tail. -/
theorem pop_view (q : Queue α) :
    q.pop.map (fun (a, rest) => (a, rest.toList)) =
      q.toList.head?.map fun a => (a, q.toList.tail) := by
  obtain ⟨front, back, size, h⟩ := q
  cases front with
  | cons a front => simp [pop, toList]
  | nil => cases hBack : back.reverse <;> simp [pop, toList, ofList, hBack]

theorem pop_eq_none_iff {q : Queue α} : q.pop = none ↔ q.toList = [] := by
  have hView := pop_view q
  cases hPop : q.pop <;> cases hList : q.toList <;> simp_all

theorem toList_of_pop {q rest : Queue α} {a : α} (h : q.pop = some (a, rest)) :
    q.toList = a :: rest.toList := by
  have hView := pop_view q
  cases hList : q.toList <;> simp_all

end Queue

end TraitInference
