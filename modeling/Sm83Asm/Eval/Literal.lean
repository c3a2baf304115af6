import Sm83Asm.Value

set_option autoImplicit false

/-!
# String literals

The text of a string literal is found in two steps. Interpolations and macro escapes are replaced,
in passes over the whole text, until a pass replaces nothing or the allowed number of passes is
used up; then the escapes of single characters are resolved.
-/

namespace Sm83Asm

/-! ## Character escapes -/

/-- The character that a backslash and `c` stand for. -/
def unescapeChar : Char → Char
  | 'n' => '\n'
  | 't' => '\t'
  | 'r' => '\r'
  | '0' => Char.ofNat 0
  | c => c

/-- Resolves the escapes of single characters. -/
def unescape : List Char → List Char
  | [] => []
  | ['\\'] => ['\\']
  | '\\' :: c :: cs => unescapeChar c :: unescape cs
  | c :: cs => c :: unescape cs

/-! ## Passes -/

/-- What a pass over a text gives. -/
structure Pass where
  text : List Char
  /-- Whether anything was replaced. -/
  changed : Bool
  errors : List SubstitutionError

namespace Pass

/-- The pass over nothing. -/
def empty : Pass := ⟨[], false, []⟩

/-- A pass that keeps some text in front of another pass. -/
def keep (cs : List Char) (p : Pass) : Pass := { p with text := cs ++ p.text }

/-- A pass with the outcome of a replacement in front: the new text, or the old one and an
error. -/
def replace (old : List Char) (new : Except SubstitutionError String) (p : Pass) : Pass :=
  match new with
  | .ok text => { p with text := text.toList ++ p.text, changed := true }
  | .error error => { p with text := old ++ p.text, errors := error :: p.errors }

end Pass

/-- Characters that a macro escape may have behind its backslash. -/
def isMacroEscape (c : Char) : Bool := ('1' ≤ c && c ≤ '9') || c == '#' || c == '@'

/-- Whether a character is a brace. -/
def isBrace (c : Char) : Bool := c == '\x7b' || c == '\x7d'

/-- One pass over a text. An opening brace begins an interpolation when the next brace closes
it. -/
def State.substitutePass (st : State) (cs : List Char) : Pass :=
  match cs with
  | [] => .empty
  | ['\\'] => ⟨['\\'], false, []⟩
  | '\\' :: c :: rest =>
    if isMacroEscape c then (st.substitutePass rest).replace ['\\', c] (st.escapeText c)
    else (st.substitutePass rest).keep ['\\', c]
  | c :: rest =>
    if c == '\x7b' then
      match rest.dropWhile (fun c => !isBrace c) with
      | close :: _ =>
        if close == '\x7d' then
          let inner := rest.takeWhile fun c => !isBrace c
          (st.substitutePass (rest.drop (inner.length + 1))).replace
            ('\x7b' :: inner ++ ['\x7d']) (st.interpolate inner)
        else (st.substitutePass rest).keep [c]
      | [] => (st.substitutePass rest).keep [c]
    else (st.substitutePass rest).keep [c]
termination_by cs.length
decreasing_by all_goals simp only [List.length_cons, List.length_drop]; omega

/-- Passes over a text until one replaces nothing; `left` more are allowed after this one, and
`done` went before. -/
def State.settle (st : State) (left done : Nat) (cs : List Char) :
    List Char × List EvaluationCause :=
  let pass := st.substitutePass cs
  let causes := pass.errors.map .substitution
  if !pass.changed then (pass.text, causes)
  else
    match left with
    | 0 => (pass.text, causes ++ [.unsettledString (done + 1)])
    | left + 1 =>
      let (text, more) := st.settle left (done + 1) pass.text
      (text, causes ++ more)

/-- The text between the quotes of a literal; a text that is not quoted is taken whole. -/
def unquote (cs : List Char) : List Char :=
  match cs with
  | '"' :: rest => if rest.getLast? == some '"' then rest.dropLast else cs
  | _ => cs

/-- The text of a string literal and what went wrong in finding it. -/
def State.expandString (st : State) (literal : String) : String × List EvaluationCause :=
  let (text, causes) := st.settle (st.config.maxSubstitutions - 1) 0 (unquote literal.toList)
  (String.ofList (unescape text), causes)

end Sm83Asm
