import Sm83Asm.Token.Match
import Sm83Asm.Value

set_option autoImplicit false

/-!
# Token streams

A line is cut into pieces from left to right. The names of string equates, macro arguments, unique
suffixes and interpolations stand for other text: the first of them that has a replacement is
replaced and the line is cut again from its start, up to a fixed number of times. The tokens of
the final text stand between an empty start token and an empty end token.
-/

namespace Sm83Asm

/-! ## Cutting a line -/

/-- A token and everything that was matched in it, the token itself last. -/
structure Piece where
  token : Token
  matched : List SubMatch
deriving Inhabited

/-- A place in a line that is being cut. -/
structure Cursor where
  context : ScanContext
  /-- Characters in front of the place. -/
  pos : Nat := 0
  /-- Bytes in front of the place. -/
  column : Nat := 0

/-- The match at a place; a character that no rule takes is a token of its own. -/
def Cursor.matchAt (cur : Cursor) (cs : List Char) : Match :=
  (scanTop cur.context cur.pos cs).getD { kind := .unknown, length := 1 }

/-- The piece for a match at a place. -/
def Cursor.piece (cur : Cursor) (line : Nat) (m : Match) (cs : List Char) : Piece :=
  { token := ⟨m.kind, String.ofList (cs.take m.length), line, cur.column⟩
    matched := m.subs ++ [⟨m.kind, cur.pos, m.length⟩] }

/-- The place behind a match. -/
def Cursor.advance (cur : Cursor) (m : Match) (cs : List Char) : Cursor :=
  { context :=
      if m.kind.isTrivia || m.kind == .comment then cur.context
      else { cur.context with prev := some m.kind }
    pos := cur.pos + m.length
    column := cur.column + Text.byteLength (cs.take m.length) }

/-- The pieces of the rest of a line. -/
def piecesFrom (line : Nat) (cur : Cursor) (cs : List Char) : List Piece :=
  match cs with
  | [] => []
  | c :: rest =>
    let m := cur.matchAt (c :: rest)
    cur.piece line m (c :: rest) ::
      piecesFrom line (cur.advance m (c :: rest)) (rest.drop (m.length - 1))
termination_by cs.length

/-- The place at the start of a line. -/
def State.cursor (st : State) : Cursor :=
  { context := { extensions := st.extensions, options := st.options } }

/-! ## Labels and macro calls -/

/-- Tokens that fill the slots of a line. -/
def isSignificant (t : Token) : Bool :=
  !t.kind.isTrivia && t.kind != .comment && t.kind != .startOfLine && t.kind != .endOfLine

/-- Tokens that define the name in front of them. -/
def definesLabel (t : Token) : Bool :=
  match t.kind with
  | .keyword => (Keyword.ofWord? t.text).any Keyword.namesLabel
  | .operator => t.text == "="
  | _ => false

/-- Changes the class of the significant token with a number from zero. -/
def retag (kind : TokenKind) : Nat → List Token → List Token
  | _, [] => []
  | n, t :: ts =>
    if isSignificant t then
      match n with
      | 0 => { t with kind } :: ts
      | n + 1 => t :: retag kind n ts
    else t :: retag kind n ts

/-- Tells labels and macro calls from other identifiers. An identifier that comes first is a label
when a colon or a defining word follows or when it stands at the margin, and a macro call
otherwise; an identifier behind the colon of a label is a macro call. -/
def classify (tokens : List Token) : List Token :=
  match tokens.filter isSignificant with
  | [] => tokens
  | first :: rest =>
    if first.kind != .identifier then tokens
    else
      let colon := rest.head?.any fun t => t.kind == .colon || t.kind == .doubleColon
      if colon || first.column == 0 || rest.head?.any definesLabel then
        let tokens := retag .label 0 tokens
        if colon && rest[1]?.any (·.kind == .identifier) then retag .macroCall 2 tokens else tokens
      else retag .macroCall 0 tokens

/-- The tokens of a line with these pieces. -/
def tokensOf (line : Nat) (cs : List Char) (pieces : List Piece) : List Token :=
  classify (.start line :: pieces.map Piece.token ++ [⟨.endOfLine, "", line, Text.byteLength cs⟩])

/-- The tokens of a line as it is written. -/
def State.rawTokens (st : State) (line : Nat) (cs : List Char) : List Token :=
  tokensOf line cs (piecesFrom line st.cursor cs)

/-! ## Replacing text -/

/-- Whether the next identifier is wanted by name: after `PURGE`, or as the argument of `DEF`. The
tokens in front of it are given latest first. -/
def protectsName (seen : List Token) : Bool :=
  let seen := seen.filter fun t => !t.kind.isTrivia && t.kind != .startOfLine
  seen.any (fun t => t.kind == .keyword && t.isWord "PURGE") ||
    match seen with
    | paren :: word :: _ => word.isWord "DEF" && paren.kind == .openParen
    | _ => false

/-- The text that a match stands for: none when it stands for itself, an error when its text
cannot be found. -/
def State.substitution (st : State) (seen : List Token) (kind : TokenKind) (text : List Char) :
    Option (Except SubstitutionError String) :=
  match kind with
  | .identifier =>
    match st.strings.get? (String.ofList text) with
    | some equate => if protectsName seen then none else some (.ok equate.value)
    | none => none
  | .macroArgument => text[1]?.map st.escapeText
  | .uniqueLabel => some (st.escapeText '@')
  | .interpolation => some (st.interpolate text.tail.dropLast)
  | _ => none

/-- The characters of a match. -/
def SubMatch.slice (m : SubMatch) (cs : List Char) : List Char :=
  (cs.drop m.start).take m.length

/-- The line with a match replaced. -/
def SubMatch.splice (m : SubMatch) (cs : List Char) (text : String) : List Char :=
  cs.take m.start ++ text.toList ++ cs.drop (m.start + m.length)

/-- The line after the first replacement among some matches. -/
def State.expandIn? (st : State) (whole : List Char) (seen : List Token)
    (matched : List SubMatch) : Option (List Char) :=
  matched.findSome? fun m =>
    match st.substitution seen m.kind (m.slice whole) with
    | some (.ok text) => some (m.splice whole text)
    | _ => none

/-- Reports for those of some matches whose text cannot be found. -/
def State.failuresIn (st : State) (line : Nat) (whole : List Char) (seen : List Token)
    (matched : List SubMatch) : List Report :=
  matched.filterMap fun m =>
    let text := m.slice whole
    match st.substitution seen m.kind text with
    | some (.error error) =>
      some (.lexical (.substitution error)
        ⟨m.kind, String.ofList text, line, Text.byteLength (whole.take m.start)⟩)
    | _ => none

/-- The line after the first replacement in its rest. -/
def State.expandFrom? (st : State) (line : Nat) (whole : List Char) (seen : List Token)
    (cur : Cursor) (cs : List Char) : Option (List Char) :=
  match cs with
  | [] => none
  | c :: rest =>
    let m := cur.matchAt (c :: rest)
    let piece := cur.piece line m (c :: rest)
    match st.expandIn? whole seen piece.matched with
    | some next => some next
    | none =>
      st.expandFrom? line whole (piece.token :: seen) (cur.advance m (c :: rest))
        (rest.drop (m.length - 1))
termination_by cs.length

/-- Reports for the matches in some pieces whose text cannot be found. -/
def State.failuresFrom (st : State) (line : Nat) (whole : List Char) (seen : List Token) :
    List Piece → List Report
  | [] => []
  | p :: ps =>
    st.failuresIn line whole seen p.matched ++ st.failuresFrom line whole (p.token :: seen) ps

/-- What one pass over a line gives. -/
inductive Lexed where
  | final (tokens : List Token) (reports : List Report)
  /-- Something was replaced; the line has to be cut again. -/
  | expanded (cs : List Char)
deriving Inhabited

/-- One pass over a line, with or without replacing text. -/
def State.lex (st : State) (line : Nat) (substitute : Bool) (cs : List Char) : Lexed :=
  if substitute then
    match st.expandFrom? line cs [.start line] st.cursor cs with
    | some next => .expanded next
    | none =>
      let pieces := piecesFrom line st.cursor cs
      .final (tokensOf line cs pieces) (st.failuresFrom line cs [.start line] pieces)
  else .final (st.rawTokens line cs) []

/-- The tokens of a line after at most `left` replacements; `limit` is the number allowed in all. -/
def State.tokensWithin (st : State) (line limit : Nat) : Nat → List Char → List Token × List Report
  | 0, cs => (st.rawTokens line cs, [])
  | left + 1, cs =>
    match st.lex line true cs with
    | .final tokens reports => (tokens, reports)
    | .expanded next =>
      let (tokens, reports) := st.tokensWithin line limit left next
      if left == 0 then
        (tokens, .lexical (.substitutionLimit limit) (.start line) :: reports)
      else (tokens, reports)

/-- The tokens of a line, its text replaced until nothing is left to replace. -/
def State.tokenize (st : State) (line : Nat) (cs : List Char) : List Token × List Report :=
  let limit := st.config.maxSubstitutions
  st.tokensWithin line limit limit cs

end Sm83Asm
