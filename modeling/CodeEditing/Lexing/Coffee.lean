import CodeEditing.Lexing.Scan

/-! CoffeeScript: its words and its rule table.

Words are told apart by lists of words (`words`). A text is in the state `start` outside of
everything that may run over several lines; each such thing has a state of its own, which its
closing mark leaves: here-documents, strings, embedded scripts, here-patterns and block comments. -/
namespace CodeEditing.Lexing.Coffee

/-! ### Words -/

def variableWords : String := "window|arguments|prototype|document"

def supportFunctionWords : String :=
  "Math|JSON|isNaN|isFinite|parseInt|parseFloat|encodeURI|encodeURIComponent|decodeURI|" ++
  "decodeURIComponent|String"

def supportClassWords : String :=
  "Array|Boolean|Date|Function|Number|Object|RegExp|ReferenceError|String|Error|EvalError|" ++
  "InternalError|RangeError|StopIteration|SyntaxError|TypeError|URIError|ArrayBuffer|" ++
  "Float32Array|Float64Array|Int16Array|Int32Array|Int8Array|Uint16Array|Uint32Array|" ++
  "Uint8Array|Uint8ClampedArray"

def illegalWords : String :=
  "case|const|default|function|var|void|with|enum|export|implements|interface|let|package|" ++
  "private|protected|public|static|yield"

def constantWords : String := "true|false|null|undefined|NaN|Infinity"

def keywordWords : String :=
  "this|throw|then|try|typeof|super|switch|return|break|by|continue|catch|class|in|instanceof|" ++
  "is|isnt|if|else|extends|for|own|finally|function|while|when|new|no|not|delete|debugger|do|" ++
  "loop|of|off|or|on|unless|until|and|yes"

/-- The kinds of words. A word in two lists is of the kind of the first. -/
def words : WordTiers :=
  ((((((WordTiers.ofFallback .identifier).tier .variableLanguage variableWords).tier
    .supportFunction supportFunctionWords).tier .supportClass supportClassWords).tier
    .invalidIllegal illegalWords).tier .constantLanguage constantWords).tier .keyword keywordWords

/-! ### Rules -/

/-- The pattern of a name. -/
def name : String := "[$A-Za-z_\\x\x7b7f\x7d-\\x\x7bffff\x7d][$\\w\\x\x7b7f\x7d-\\x\x7bffff\x7d]*"

/-- A name that is given a function. -/
def functionPattern : String :=
  "(@?" ++ name ++ r")(\s*)([=:])(\s*)(\([^)]*\))?(\s*)([-=]>)"

/-- A class header, with the class it extends if it does. -/
def classPattern : String :=
  r"(class)(\s+)(" ++ name ++ r")(?:(\s+)(extends)(\s+)(@?" ++ name ++ r"(?:\." ++ name ++ ")*))?"

def ofKind (pattern : String) (kind : Kind) (next : Option String := none) : RuleDraft :=
  {pattern, token := .kind kind, next}

def ofGroups (pattern : String) (kinds : List Kind) : RuleDraft := {pattern, token := .groups kinds}

/-- Numbers, then everything that opens a state, then comments, definitions, names and signs. Four
hashes or more begin a line comment, three open a block. -/
def startRules : List RuleDraft :=
  [ ofKind r"(?:0[xX][\da-fA-F]+|(?:\d+(?:\.\d+)?|\.\d+)(?:[eE][+-]?\d+)?)" .constantNumeric,
    ofKind "'''" .string "qdoc",
    ofKind "\"\"\"" .string "qqdoc",
    ofKind "'" .string "qstring",
    ofKind "\"" .string "qqstring",
    ofKind "`" .string "js",
    ofKind "///" .stringRegex "heregex",
    ofKind (r"/(?:[^\s/\\\n\[]|\\.|\[(?:\\.|[^\]\\\n])*\])" ++
      "(?:[^/\\\\\\n\\[]|\\\\.|\\[(?:\\\\.|[^\\]\\\\\\n])*\\])*/[imgy]\x7b0,4\x7d") .stringRegex,
    ofKind "####.*" .comment,
    ofKind "###" .comment "comment",
    ofKind "#.*" .comment,
    ofGroups functionPattern
      [.functionName, .text, .keywordOperator, .text, .variableParameter, .text, .storageType],
    ofGroups r"(\([^)]*\))(\s*)([-=]>)" [.variableParameter, .text, .storageType],
    ofGroups classPattern
      [.keyword, .text, .supportClass, .text, .keyword, .text, .supportClass],
    ofKind ("@(?:" ++ name ++ ")?") .variable,
    {pattern := name, token := .classify words.classify},
    ofKind r"[-=]>" .storageType,
    ofKind "\\.\x7b2,3\x7d" .keywordOperator,
    ofKind r"[,.]" .punctuation,
    ofKind (r"(?:>>>=?|<<=|>>=|&&=|\|\|=|\?\.|::|--|\+\+|[-+*/%<>&|^!?=]=|[-!*+/%<>=&|^?~:])")
      .keywordOperator,
    ofKind "[(\\[\x7b]" .parenOpen,
    ofKind "[)\\]\x7d]" .parenClose,
    ofKind r"\s+" .text ]

/-- Up to a closing mark, or else the whole rest of the line. -/
def upToMark (pattern : String) (kind : Kind) : List RuleDraft :=
  [ofKind pattern kind "start", ofKind ".+" kind]

/-- The states and their rules, as a draft. -/
def draft : TableDraft :=
  (((((((({} : TableDraft).rules "start" startRules).rules "qdoc" (upToMark ".*?'''" .string)).rules
    "qqdoc" (upToMark ".*?\"\"\"" .string)).rules
    "qstring" (upToMark r"[^\\']*(?:\\.[^\\']*)*'" .string)).rules
    "qqstring" (upToMark r#"[^\\"]*(?:\\.[^\\"]*)*""# .string)).rules
    "js" (upToMark r"[^\\`]*(?:\\.[^\\`]*)*`" .string)).rules
    "heregex"
      [ofKind ".*?///[imgy]\x7b0,4\x7d" .stringRegex "start", ofKind r"\s+(?:#.*)?" .commentRegex,
        ofKind r"\S+" .stringRegex]).rule
    "comment" {ofKind "###" .comment "start" with merge := true} |>.defaultKind "comment" .comment

/-- The rule table. -/
def table : RuleTable := draft.build.toOption.getD ⟨[]⟩

def tokenizer : Tokenizer := ⟨table, defaultCap⟩

end CodeEditing.Lexing.Coffee
