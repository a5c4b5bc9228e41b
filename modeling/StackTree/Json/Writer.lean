import StackTree.Json.Token

/-!
# Writing JSON values

A value is written in one of two forms: compact, which is its tokens with nothing between them, and
pretty, with one item or field on a line and two blanks for each level.

## Main definitions

* `Json.Value.tokens`: the tokens of a value in order.
* `Json.Value.compact`, `Json.Value.pretty`.
-/

namespace StackTree.Json.Value

/-! ## Compact -/

mutual

/-- The tokens of a value in order. -/
def tokens : Value → List Token
  | null => [.null]
  | bool b => [.bool b]
  | integer i => [.integer i]
  | real n => [.real n]
  | text t => [.text t]
  | array items => .openArray :: itemTokens items ++ [.closeArray]
  | object fields => .openObject :: fieldTokens fields ++ [.closeObject]

/-- The tokens of the items of an array, with commas between them. -/
def itemTokens : List Value → List Token
  | [] => []
  | item :: rest => item.tokens ++ laterItemTokens rest

/-- The tokens of further items, each after a comma. -/
def laterItemTokens : List Value → List Token
  | [] => []
  | item :: rest => .comma :: item.tokens ++ laterItemTokens rest

/-- The tokens of the fields of an object, with commas between them. -/
def fieldTokens : List (Text × Value) → List Token
  | [] => []
  | (name, value) :: rest => .text name :: .colon :: value.tokens ++ laterFieldTokens rest

/-- The tokens of further fields, each after a comma. -/
def laterFieldTokens : List (Text × Value) → List Token
  | [] => []
  | (name, value) :: rest =>
    .comma :: .text name :: .colon :: value.tokens ++ laterFieldTokens rest

end

/-- The compact form. -/
def compact (v : Value) : String := String.ofList (v.tokens.flatMap Token.written)

/-! ## Pretty -/

/-- The start of a line at some level. -/
def newLine (level : Nat) : List Char := '\n' :: List.replicate (2 * level) ' '

mutual

/-- The pretty form of a value that starts at some level. -/
def prettyAt (level : Nat) : Value → List Char
  | array [] => ['[', ']']
  | array (item :: rest) =>
    '[' :: newLine (level + 1) ++ item.prettyAt (level + 1) ++ prettyItems (level + 1) rest
      ++ newLine level ++ [']']
  | object [] => ['\x7b', '\x7d']
  | object ((name, value) :: rest) =>
    '\x7b' :: newLine (level + 1) ++ (Token.text name).written ++ [':', ' ']
      ++ value.prettyAt (level + 1) ++ prettyFields (level + 1) rest ++ newLine level ++ ['\x7d']
  | null => Token.null.written
  | bool b => (Token.bool b).written
  | integer i => (Token.integer i).written
  | real n => (Token.real n).written
  | text t => (Token.text t).written

/-- The pretty form of further items. -/
def prettyItems (level : Nat) : List Value → List Char
  | [] => []
  | item :: rest => ',' :: newLine level ++ item.prettyAt level ++ prettyItems level rest

/-- The pretty form of further fields. -/
def prettyFields (level : Nat) : List (Text × Value) → List Char
  | [] => []
  | (name, value) :: rest =>
    ',' :: newLine level ++ (Token.text name).written ++ [':', ' '] ++ value.prettyAt level
      ++ prettyFields level rest

end

/-- The pretty form. -/
def pretty (v : Value) : String := String.ofList (v.prettyAt 0)

end StackTree.Json.Value
