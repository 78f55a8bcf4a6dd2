import TraitInference.Fault
import TraitInference.Text.Quoted
import TraitInference.Ty.Basic

/-!
# TraitInference — how types are written

A point is a hole `_`. A nominal type is its name followed by its children, a
function its arguments, an arrow and its result, a tuple its elements between
parentheses and semicolons, a block its children between braces, a message its
text in quotes. In **atom** position, where it is an argument of something
else, a type of several words is put in parentheses.

The name of a nominal type is the text at its declaration, so writing a type
asks for the names of its declarations, from left to right, and faults at the
first that has none.
-/

namespace TraitInference

namespace Ty

/-- Where a type is written: on its own, or as an argument. -/
inductive Place
  | top
  | atom
deriving DecidableEq

/-- Parentheses around `text` where an argument is wanted. -/
def Place.enclose : Place → List Char → List Char
  | .top, text => text
  | .atom, text => '(' :: text ++ [')']

/-- Puts a blank in front of each text. -/
def spaced (texts : List (List Char)) : List Char :=
  texts.flatMap (' ' :: ·)

/-- The arguments of a function as they stand before the arrow. -/
def argumentText : List (List Char) → List Char
  | [] => ['(', ')']
  | texts => [' '].intercalate texts

mutual

/-- The characters of a type, with `name` giving the names of declarations. -/
def write (name : Point → Except Fault String) : Place → Ty → Except Fault (List Char)
  | _, .point _ => .ok ['_']
  | place, .con (.named declaration) children _ => do
    let head ← name declaration
    let texts ← writeAll name .atom children
    return match texts with
      | [] => head.toList
      | _ => place.enclose (head.toList ++ spaced texts)
  | _, .con (.parameter q) _ _ => .ok q.name.toList
  | place, .con .function children _ => do
    let (arguments, result) ← writeArrow name children
    return place.enclose (argumentText arguments ++ [' ', '-', '>', ' '] ++ result)
  | _, .con .tuple children _ => do
    let texts ← writeAll name .top children
    return '(' :: [' ', ';', ' '].intercalate texts ++ [')']
  | _, .con .block children _ => do
    let texts ← writeAll name .top children
    return '\x7b' :: texts.flatten ++ ['\x7d']
  | _, .con .intrinsic _ _ => .ok "intrinsic".toList
  | _, .con (.message text) _ _ => .ok (Text.quoted text.toList)

/-- The characters of each of a row of types, all at the same kind of place. -/
def writeAll (name : Point → Except Fault String) (place : Place) :
    List Ty → Except Fault (List (List Char))
  | [] => .ok []
  | t :: ts => do
    let text ← write name place t
    let texts ← writeAll name place ts
    return text :: texts

/-- The arguments and the result of a function; a function without children has
a hole for its result. -/
def writeArrow (name : Point → Except Fault String) :
    List Ty → Except Fault (List (List Char) × List Char)
  | [] => .ok ([], ['_'])
  | [result] => do
    let text ← write name .top result
    return ([], text)
  | argument :: next :: rest => do
    let text ← write name .atom argument
    let (texts, result) ← writeArrow name (next :: rest)
    return (text :: texts, result)

end

/-- The text of a type on its own. -/
def print (name : Point → Except Fault String) (t : Ty) : Except Fault String :=
  String.ofList <$> write name .top t

end Ty

namespace Tag

/-- The text of a tag in traces. -/
def label : Tag → String
  | .named declaration => "Named(" ++ declaration.label ++ ")"
  | .parameter q =>
    "Parameter(TypeParameter \x7b id: ParameterId(" ++ toString q.id ++ "), name: " ++
      Text.quote q.name ++ ", source: " ++ q.source.label ++ ", infer: " ++
      (if q.infer then "true" else "false") ++ " \x7d)"
  | .function => "Function"
  | .tuple => "Tuple"
  | .block => "Block"
  | .intrinsic => "Intrinsic"
  | .message text => "Message(" ++ Text.quote text ++ ")"

end Tag

end TraitInference
