import ShaderExpr.Source.Problem

namespace ShaderExpr

/-- A token at the front of a text, and the number of characters it takes. -/
structure Lexeme where
  kind : Token.Kind
  flaw : Option LiteralFlaw
  size : Nat
  deriving DecidableEq, Repr

namespace Lexeme

/-- The text up to the end of a block comment. -/
def blockText? : List Char → Option (List Char)
  | [] => none
  | '*' :: '/' :: _ => some []
  | c :: rest => (blockText? rest).map (c :: ·)

/-- A comment to the end of the line or of the block. The line break is not part of it, and a
    block without an end is no comment. -/
def comment? : List Char → Option Lexeme
  | '/' :: '/' :: rest =>
    let body := rest.takeWhile (· != '\n')
    some ⟨.comment (String.ofList (trimmed body)), none, body.length + 2⟩
  | '/' :: '*' :: rest =>
    (blockText? rest).map fun body =>
      ⟨.comment (String.ofList (trimmed body)), none, body.length + 4⟩
  | _ => none

def literal? (text : List Char) : Option Lexeme :=
  match Literal.float? text with
  | some (value, size) => some ⟨.literal value, none, size⟩
  | none =>
    match Literal.integer? text with
    | some (value, flaw, size) => some ⟨.literal value, flaw, size⟩
    | none => (Literal.bool? text).map fun (value, size) => ⟨.literal value, none, size⟩

def symbol? (text : List Char) : Option Lexeme :=
  (Symbol.all.find? fun s => s.text.toList.isPrefixOf text).map fun s =>
    ⟨.symbol s, none, s.text.length⟩

def isIdentStart (c : Char) : Bool := isAsciiLetter c || c = '_'
def isIdentPart (c : Char) : Bool := isAsciiAlphanumeric c || c = '_'

/-- An identifier or a keyword, as long as it goes on. -/
def word? : List Char → Option Lexeme
  | [] => none
  | c :: rest =>
    if isIdentStart c then
      let word := String.ofList (c :: rest.takeWhile isIdentPart)
      let kind := if Token.keywords.contains word then Token.Kind.keyword word else .ident word
      some ⟨kind, none, 1 + (rest.takeWhile isIdentPart).length⟩
    else none

def control? : List Char → Option Lexeme
  | [] => none
  | c :: _ => if Token.controls.contains c then some ⟨.control c, none, 1⟩ else none

/-- The token at the front of a text. The kinds of tokens are tried in a fixed order and the first
    that matches is taken. -/
def first? (text : List Char) : Option Lexeme :=
  comment? text <|> literal? text <|> symbol? text <|> word? text <|> control? text

/-- The next token in a text that is not looked at from its front only, and the number of
    characters before it. -/
def next? : List Char → Option (Nat × Lexeme)
  | [] => none
  | c :: rest =>
    match first? (c :: rest) with
    | some lexeme => some (0, lexeme)
    | none => (next? rest).map fun (skipped, lexeme) => (skipped + 1, lexeme)

end Lexeme

/-- What a text was split into: its tokens with their flaws, the places that are no token, and
    whether there were tokens up to the end. -/
structure Scan where
  tokens : List (Token × Option LiteralFlaw)
  errors : List Diagnostic
  complete : Bool
  deriving Repr

namespace Scan

/-- Report about text at `position` that starts no token. It points at the character that the
    longest attempt stopped at, which is what the parser library chumsky 0.9 reports of a choice
    that fails: the error of the alternative that went farthest. -/
def stray (position : Nat) (text : List Char) : Diagnostic :=
  let reach := Literal.reach text
  let start := position + byteLength (text.take reach)
  match text.drop reach with
  | [] => ⟨.unexpectedEnd, ⟨start, start⟩⟩
  | c :: _ => ⟨.unexpected c, ⟨start, start + c.utf8Size⟩⟩

def addToken (s : Scan) (lexeme : Lexeme) (start stop : Nat) : Scan :=
  { s with tokens := (⟨lexeme.kind, ⟨start, stop⟩⟩, lexeme.flaw) :: s.tokens }

/-- Splits text that starts at byte `position`. A character that starts no token is reported and
    skipped together with everything up to the next token, which then covers them: so chumsky 0.9
    recovers when it skips until a parser succeeds. Positions are natural numbers here, and fit
    words of 32 bits in sources of less than `2 ^ 32` bytes. -/
def ofText (position : Nat) : List Char → Scan
  | [] => ⟨[], [], true⟩
  | c :: rest =>
    if isWhiteSpace c then ofText (position + c.utf8Size) rest
    else
      match Lexeme.first? (c :: rest) with
      | some lexeme =>
        let stop := position + byteLength ((c :: rest).take lexeme.size)
        (ofText stop (rest.drop (lexeme.size - 1))).addToken lexeme position stop
      | none =>
        let error := stray position (c :: rest)
        match Lexeme.next? rest with
        | none => ⟨[], [error], false⟩
        | some (skipped, lexeme) =>
          let size := skipped + lexeme.size
          let stop := position + c.utf8Size + byteLength (rest.take size)
          let following := (ofText stop (rest.drop size)).addToken lexeme position stop
          { following with errors := error :: following.errors }
termination_by text => text.length
decreasing_by all_goals simp only [List.length_drop, List.length_cons]; omega

/-- Splits a source. A byte order mark may stand in front. -/
def ofSource (source : String) : Scan :=
  match source.toList with
  | '\ufeff' :: rest => ofText 3 rest
  | text => ofText 0 text

end Scan

/-- Tokens of a source, apart from its comments, and its comments. -/
structure TokenList where
  tokens : List Token
  comments : List Token
  deriving DecidableEq, Repr

/-- Splits a source into tokens. Flaws of literals are reported behind all other errors. When no
    token was found behind an error, there are no tokens at all. -/
def lex (source : String) : Option TokenList × List Diagnostic :=
  let scan := Scan.ofSource source
  if scan.complete then
    let tokens := scan.tokens.map (·.1)
    let flaws := scan.tokens.filterMap fun (token, flaw) =>
      flaw.map fun f => ⟨.literal f, token.span⟩
    (some ⟨tokens.filter (!·.kind.isComment), tokens.filter (·.kind.isComment)⟩,
      scan.errors ++ flaws)
  else (none, scan.errors)

/-- The tokens of a source that has no lexical errors. -/
def lexStrict? (source : String) : Option (List Token) :=
  match lex source with
  | (some tokens, []) => some tokens.tokens
  | _ => none

end ShaderExpr
