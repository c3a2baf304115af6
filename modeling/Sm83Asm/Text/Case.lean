import Sm83Asm.Text.CaseTable

set_option autoImplicit false

/-!
# Upper and lower case of whole texts

`toUpper` and `toLower` follow the full Unicode mappings: one character may become several, and a
capital sigma becomes the final form `ς` exactly when it ends a word.
-/

namespace Sm83Asm.Text

/-- The image of a code point under a table of runs and a table of longer images. -/
def mapCase (runs : Array (Nat × Nat × Nat × Nat)) (long : List (Nat × List Nat)) (c : Char) :
    List Char :=
  let n := c.toNat
  match long.lookup n with
  | some image => image.map Char.ofNat
  | none =>
    match runs.find? fun (first, last, step, _) =>
        first ≤ n && n ≤ last && (n - first) % step == 0 with
    | some (first, _, _, target) => [Char.ofNat (target + (n - first))]
    | none => [c]

/-- Membership of a code point in a table of ranges. -/
def inRanges (ranges : Array (Nat × Nat)) (c : Char) : Bool :=
  ranges.any fun (lo, hi) => lo ≤ c.toNat && c.toNat ≤ hi

/-- Whether the first character that is not passed over has case. -/
def meetsCased (cs : List Char) : Bool :=
  match cs.dropWhile (inRanges ignorableRanges) with
  | c :: _ => inRanges casedRanges c
  | [] => false

/-- Upper case of a text. -/
def toUpper (cs : List Char) : List Char :=
  cs.flatMap (mapCase upperRuns upperLong)

/-- Lower case of a text whose reversed beginning is `before`. -/
def toLowerFrom (before : List Char) : List Char → List Char
  | [] => []
  | c :: cs =>
    let image :=
      if c == 'Σ' then
        [if meetsCased before && !meetsCased cs then 'ς' else 'σ']
      else mapCase lowerRuns lowerLong c
    image ++ toLowerFrom (c :: before) cs

/-- Lower case of a text. -/
def toLower (cs : List Char) : List Char :=
  toLowerFrom [] cs

end Sm83Asm.Text
