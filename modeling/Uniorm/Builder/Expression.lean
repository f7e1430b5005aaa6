import Uniorm.Sql.Token

/-! # Predicate trees

The trees the comparison functions, `in`, `is_null`, `like`, `&&` and `||` build,
and their rendering. A column is named by a member key, which the caller of the
rendering resolves; the values a tree binds come in the order of its placeholders.
-/
namespace Uniorm.Builder

open Sql

universe u v w

def compOpText : CompOp → Text
  | .eq => ['=']
  | .ne => ['<', '>']
  | .lt => ['<']
  | .le => ['<', '=']
  | .gt => ['>']
  | .ge => ['>', '=']

/-- `predicate`; `empty` is the one without a node. -/
inductive Predicate (K : Type u) (S : Type v) where
  | empty
  | comparison (key : K) (op : CompOp) (value : S)
  | inList (key : K) (values : List S)
  | nullCheck (key : K) (negated : Bool)
  | like (key : K) (pattern : S)
  | conjunction (lhs rhs : Predicate K S)
  | disjunction (lhs rhs : Predicate K S)

namespace Predicate
variable {K : Type u} {S : Type v} {ε : Type w}

/-- The text, and the values appended for it; `whenEmpty` is the error of a tree without a node. -/
def toSql (whenEmpty : ε) (resolve : K → Except ε Text) :
    Predicate K S → Except ε (Text × List S)
  | empty => .error whenEmpty
  | comparison key op value =>
    (resolve key).map fun column => (column ++ [' '] ++ compOpText op ++ [' ', '?'], [value])
  | inList key values =>
    if values.isEmpty then .ok (['1', ' ', '=', ' ', '0'], [])
    else (resolve key).map fun column =>
      (column ++ [' ', 'I', 'N', ' ', '('] ++ [',', ' '].intercalate (values.map fun _ => ['?']) ++
        [')'], values)
  | nullCheck key negated =>
    (resolve key).map fun column => (column ++ if negated then
      [' ', 'I', 'S', ' ', 'N', 'O', 'T', ' ', 'N', 'U', 'L', 'L']
      else [' ', 'I', 'S', ' ', 'N', 'U', 'L', 'L'], [])
  | like key pattern =>
    (resolve key).map fun column => (column ++ [' ', 'L', 'I', 'K', 'E', ' ', '?'], [pattern])
  | conjunction lhs rhs =>
    match lhs.toSql whenEmpty resolve, rhs.toSql whenEmpty resolve with
    | .error e, _ => .error e
    | .ok _, .error e => .error e
    | .ok l, .ok r => .ok (['('] ++ l.1 ++ [' ', 'A', 'N', 'D', ' '] ++ r.1 ++ [')'], l.2 ++ r.2)
  | disjunction lhs rhs =>
    match lhs.toSql whenEmpty resolve, rhs.toSql whenEmpty resolve with
    | .error e, _ => .error e
    | .ok _, .error e => .error e
    | .ok l, .ok r => .ok (['('] ++ l.1 ++ [' ', 'O', 'R', ' '] ++ r.1 ++ [')'], l.2 ++ r.2)

/-- The columns a tree names, in the order of the text. -/
def keys : Predicate K S → List K
  | empty => []
  | comparison key _ _ => [key]
  | inList key values => if values.isEmpty then [] else [key]
  | nullCheck key _ => [key]
  | like key _ => [key]
  | conjunction lhs rhs => lhs.keys ++ rhs.keys
  | disjunction lhs rhs => lhs.keys ++ rhs.keys

end Predicate

end Uniorm.Builder
