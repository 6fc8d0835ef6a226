/-! Kinds of tokens.

A kind is one of the scopes every language shares or a scope of a language's own. Kinds are known
by dotted names: `Kind.ofName_name` says that the name of a shared scope leads back to it, and
`Kind.name_ofName` that no name is lost. -/
namespace CodeEditing.Lexing

inductive Kind where
  | text
  | comment
  | commentRegex
  | string
  | stringRegex
  | constantNumeric
  | constantLanguage
  | constantEscape
  | keyword
  | keywordOperator
  | identifier
  | variable
  | variableLanguage
  | variableParameter
  | invalidIllegal
  | supportClass
  | supportFunction
  | storageType
  | functionName
  | punctuation
  | parenOpen
  | parenClose
  | other (name : String)
  deriving Repr, DecidableEq

namespace Kind

/-- The dotted name. -/
def name : Kind → String
  | .text => "text"
  | .comment => "comment"
  | .commentRegex => "comment.regex"
  | .string => "string"
  | .stringRegex => "string.regex"
  | .constantNumeric => "constant.numeric"
  | .constantLanguage => "constant.language"
  | .constantEscape => "constant.character.escape"
  | .keyword => "keyword"
  | .keywordOperator => "keyword.operator"
  | .identifier => "identifier"
  | .variable => "variable"
  | .variableLanguage => "variable.language"
  | .variableParameter => "variable.parameter"
  | .invalidIllegal => "invalid.illegal"
  | .supportClass => "support.class"
  | .supportFunction => "support.function"
  | .storageType => "storage.type"
  | .functionName => "entity.name.function"
  | .punctuation => "punctuation.operator"
  | .parenOpen => "paren.lparen"
  | .parenClose => "paren.rparen"
  | .other name => name

/-- The scopes every language shares. -/
def shared : List Kind :=
  [.text, .comment, .commentRegex, .string, .stringRegex, .constantNumeric, .constantLanguage,
    .constantEscape, .keyword, .keywordOperator, .identifier, .variable, .variableLanguage,
    .variableParameter, .invalidIllegal, .supportClass, .supportFunction, .storageType,
    .functionName, .punctuation, .parenOpen, .parenClose]

/-- The shared scope of a name, or a scope of its own. -/
def ofName (name : String) : Kind := (shared.find? (·.name == name)).getD (other name)

/-- A scope no other language knows. -/
def isOther : Kind → Bool
  | other _ => true
  | _ => false

def isComment (k : Kind) : Bool := "comment".toList.isPrefixOf k.name.toList

def isString (k : Kind) : Bool := "string".toList.isPrefixOf k.name.toList

/-- An opening bracket: any scope whose name ends so. -/
def isOpenParen (k : Kind) : Bool := "lparen".toList.isSuffixOf k.name.toList

/-- A closing bracket: any scope whose name ends so. -/
def isCloseParen (k : Kind) : Bool := "rparen".toList.isSuffixOf k.name.toList

theorem ofName_name {k : Kind} (h : k ∈ shared) : ofName k.name = k := by
  simp only [shared, List.mem_cons, List.not_mem_nil, or_false] at h
  rcases h with rfl | rfl | rfl | rfl | rfl | rfl | rfl | rfl | rfl | rfl | rfl | rfl | rfl | rfl |
    rfl | rfl | rfl | rfl | rfl | rfl | rfl | rfl <;> rfl

@[simp] theorem name_ofName (name : String) : (ofName name).name = name := by
  unfold ofName
  cases h : shared.find? (·.name == name) with
  | none => simp [Kind.name]
  | some k => simpa using List.find?_some h

end Kind

end CodeEditing.Lexing
