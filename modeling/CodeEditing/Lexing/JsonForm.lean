import CodeEditing.Json.Shape
import CodeEditing.Lexing.Scan

/-! The JSON forms of tokens and of the cap on their number. -/
namespace CodeEditing.Lexing

open Json (Record Value)

def Token.record : Record Token :=
  ⟨"struct Token", ⟨.text, [], 0⟩,
    [.needed "kind" .aString fun s t => {t with kind := Kind.ofName s},
      .needed "value" .aString fun s t => {t with value := s.toList},
      .needed "start" (.aSize) fun n t => {t with start := n}]⟩

def Token.toJson (t : Token) : Value :=
  .object [("kind", .string t.kind.name), ("value", .string (String.ofList t.value)),
    ("start", .ofNat t.start)]

/-- The largest number of tokens a line is given, as it is set. -/
structure Cap where
  maxTokens : Nat
  deriving Repr, DecidableEq

def Cap.record : Record Cap :=
  ⟨"struct TokenizerConfig", ⟨defaultCap⟩,
    [.optional "max_tokens_per_line" (.aSize) fun n c => {c with maxTokens := n}]⟩

def Cap.toJson (c : Cap) : Value := .object [("max_tokens_per_line", .ofNat c.maxTokens)]

end CodeEditing.Lexing
