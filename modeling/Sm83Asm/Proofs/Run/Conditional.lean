import Sm83Asm.Proofs.Run.Inside
import Sm83Asm.Proofs.Run.Repeat

set_option autoImplicit false

/-!
# Conditional blocks follow their structure

Lines are carried out one by one, and the open conditional blocks are kept on a stack: a line looks
at the words that it is written with and at the stack, never at the block as a whole. Here blocks
are given as trees, which are assembled branch by branch: conditions are evaluated until one holds,
and only the branch behind it is carried out.

Main statement: carrying out all lines of a tree in order assembles the tree
(`Listing.feed_eq_assemble`).
-/

namespace Sm83Asm

/-! ## Listings -/

/-- A line with its number. -/
structure Row where
  number : Nat
  text : String

/-- Carries out a line with a number of levels left to go deeper. -/
def Row.run (row : Row) (levels : Nat) (asm : Assembler) : Assembler :=
  Assembler.runner levels row.number row.text asm

mutual

/-- Lines and properly nested conditional blocks. -/
inductive Listing where
  | done
  | line (row : Row) (rest : Listing)
  | block (opening : Row) (body : Listing) (branches : Branches) (rest : Listing)

/-- What follows the first branch of a conditional block: its end, the branch that is left when no
condition holds, or a branch with a condition and what follows that one. -/
inductive Branches where
  | close (row : Row)
  | last (row : Row) (body : Listing) (close : Row)
  | next (row : Row) (body : Listing) (others : Branches)

end

mutual

/-- The lines of a listing in order, each with the word that it delimits branches with. -/
def Listing.rows : Listing → List (Option Keyword × Row)
  | .done => []
  | .line row rest => (none, row) :: rest.rows
  | .block opening body branches rest =>
    (some .ifTrue, opening) :: (body.rows ++ branches.rows ++ rest.rows)

@[inherit_doc Listing.rows]
def Branches.rows : Branches → List (Option Keyword × Row)
  | .close row => [(some .endIf, row)]
  | .last row body close => (some .elseAll, row) :: (body.rows ++ [(some .endIf, close)])
  | .next row body others => (some .elseIf, row) :: (body.rows ++ others.rows)

end

/-! ## Conditions -/

/-- Reads a line in full. -/
def State.read (st : State) (line : Nat) (text : String) : Statement × State :=
  let (tokens, lexical) := st.tokenize line text.toList
  let (statement, grammar) := parseLine tokens
  (statement, (st.record lexical).record grammar)

/-- The only argument of an unlabelled line with a keyword. -/
def Statement.argument? (keyword : Keyword) : Statement → Option (Token × Expr)
  | .line parsed => parsed.argument? keyword
  | _ => none

/-- Only a line that is parsed has the argument of a keyword. -/
theorem Statement.argument?_eq_some {keyword : Keyword} {statement : Statement}
    {p : Token × Expr} (h : statement.argument? keyword = some p) :
    ∃ parsed, statement = .line parsed ∧ parsed.argument? keyword = some p := by
  cases statement with
  | line parsed => exact ⟨parsed, rfl, h⟩
  | ignored start => exact absurd h (by simp [argument?])
  | invalid stop => exact absurd h (by simp [argument?])

namespace Assembler

/-- Reads the only argument of a line with a keyword, and whether it is not zero. -/
def condition (asm : Assembler) (keyword : Keyword) (row : Row) : Bool × Assembler :=
  let (statement, st) := (asm.atLine row.number).state.read row.number row.text
  match statement.argument? keyword with
  | some (_, e) =>
    let (n, st) := st.number e
    (n != 0, { asm with state := st })
  | none => (false, { asm with state := st })

/-- Evaluating a condition draws random numbers and adds reports, and does nothing else. -/
theorem condition_footprint (asm : Assembler) (keyword : Keyword) (row : Row) :
    ∃ random diagnostics, (asm.condition keyword row).2 =
      (asm.atLine row.number).mapState fun st => { st with random, diagnostics } := by
  unfold condition
  dsimp only
  split
  · exact ⟨_, _, rfl⟩
  · exact ⟨_, _, rfl⟩

/-- A condition has the same number inside of other blocks. -/
theorem condition_inside (asm : Assembler) (outer : List Conditional) (keyword : Keyword)
    (row : Row) :
    (asm.inside outer).condition keyword row =
      ((asm.condition keyword row).1, (asm.condition keyword row).2.inside outer) := by
  have hread : ((asm.inside outer).atLine row.number).state.read row.number row.text =
      (((asm.atLine row.number).state.read row.number row.text).1,
        ((asm.atLine row.number).state.read row.number row.text).2.inside outer) := by
    have htokens := (asm.atLine row.number).state.tokenize_inside outer row.number row.text.toList
    unfold State.read
    rw [show ((asm.inside outer).atLine row.number).state =
      (asm.atLine row.number).state.inside outer from rfl, htokens]
    rfl
  unfold condition
  rw [hread]
  dsimp only
  split
  · rw [State.number_inside]
    rfl
  · rfl

/-- Conditions do not look at the blocks around them. -/
theorem condition_withBlocks (asm : Assembler) (blocks : List Conditional) (keyword : Keyword)
    (row : Row) :
    (asm.withBlocks blocks).condition keyword row =
      ((asm.condition keyword row).1, (asm.condition keyword row).2.withBlocks blocks) := by
  have hthere := (asm.withBlocks []).condition_inside blocks keyword row
  have hhere := (asm.withBlocks []).condition_inside asm.state.conditionals keyword row
  have hasm : (asm.withBlocks []).inside asm.state.conditionals = asm := rfl
  have hblocks : (asm.withBlocks []).inside blocks = asm.withBlocks blocks := rfl
  obtain ⟨random, diagnostics, hcore⟩ := (asm.withBlocks []).condition_footprint keyword row
  rw [hblocks] at hthere
  rw [hasm] at hhere
  rw [hthere, hhere, hcore]
  rfl

end Assembler

mutual

/-- Carries out the lines of a listing that are selected: the conditions of a block are evaluated
in order until one holds, and the branch behind it is carried out. -/
def Listing.assemble (levels : Nat) : Listing → Assembler → Assembler
  | .done, asm => asm
  | .line row rest, asm => rest.assemble levels (row.run levels asm)
  | .block opening body branches rest, asm =>
    let (holds, asm) := asm.condition .ifTrue opening
    rest.assemble levels
      (if holds then body.assemble levels asm else branches.assemble levels asm)

@[inherit_doc Listing.assemble]
def Branches.assemble (levels : Nat) : Branches → Assembler → Assembler
  | .close _, asm => asm
  | .last _ body _, asm => body.assemble levels asm
  | .next row body others, asm =>
    let (holds, asm) := asm.condition .elseIf row
    if holds then body.assemble levels asm else others.assemble levels asm

end

/-! ## Lines that are what they are marked as -/

/-- Whether the condition of a line that delimits branches is evaluated. -/
def State.asks (st : State) : Keyword → Bool
  | .ifTrue => st.conditionsTrue
  | .elseIf => st.branchOpen
  | _ => false

namespace Row

/-- The word that a line delimits branches with, as it is written. -/
def written (row : Row) (asm : Assembler) : Option Keyword :=
  asm.state.writtenKeyword? blockWords row.number row.text

/-- Whether a line is an unlabelled keyword with one argument. -/
def isWellFormed (row : Row) (keyword : Keyword) (asm : Assembler) : Bool :=
  (((asm.atLine row.number).state.read row.number row.text).1.argument? keyword).isSome

/-- A line never touches the conditional blocks that it finds open, whatever it expands to, and
closes all blocks, macro definitions and repeats that it opens. -/
structure Tidy (levels : Nat) (row : Row) (asm : Assembler) : Prop where
  apart : ∀ m ∈ Assembler.history levels row.number row.text asm,
    asm.state.conditionals <:+ m.asm.state.conditionals
  conditionals : (row.run levels asm).state.conditionals = asm.state.conditionals
  macroDefs : (row.run levels asm).state.macroDefs = asm.state.macroDefs
  repeats : (row.run levels asm).state.repeats = asm.state.repeats

/-- A line is what it is marked as: it is written with that word and has a condition if one is
asked for, or it is written without such a word and is tidy if it is carried out. -/
def Fits (levels : Nat) (row : Row) (asm : Assembler) : Option Keyword → Prop
  | some keyword => row.written asm = some keyword ∧
    (asm.state.asks keyword = true → row.isWellFormed keyword asm = true)
  | none => row.written asm = none ∧ (asm.state.conditionsTrue = true → row.Tidy levels asm)

instance (levels : Nat) (row : Row) (asm : Assembler) : Decidable (row.Tidy levels asm) :=
  decidable_of_iff
    ((∀ m ∈ Assembler.history levels row.number row.text asm,
      asm.state.conditionals <:+ m.asm.state.conditionals) ∧
      (row.run levels asm).state.conditionals = asm.state.conditionals ∧
      (row.run levels asm).state.macroDefs = asm.state.macroDefs ∧
      (row.run levels asm).state.repeats = asm.state.repeats)
    ⟨fun h => ⟨h.1, h.2.1, h.2.2.1, h.2.2.2⟩, fun h => ⟨h.1, h.2, h.3, h.4⟩⟩

instance (levels : Nat) (row : Row) (asm : Assembler) (mark : Option Keyword) :
    Decidable (row.Fits levels asm mark) :=
  match mark with
  | some _ => inferInstanceAs (Decidable (_ ∧ _))
  | none => inferInstanceAs (Decidable (_ ∧ _))

end Row

namespace Assembler

/-- Carries out lines one after the other, whatever they are marked as. -/
def feed (levels : Nat) (rows : List (Option Keyword × Row)) (asm : Assembler) : Assembler :=
  rows.foldl (fun asm row => row.2.run levels asm) asm

/-- Each line is what it is marked as when its turn comes. -/
def Meets (levels : Nat) : List (Option Keyword × Row) → Assembler → Prop
  | [], _ => True
  | (mark, row) :: rest, asm =>
    row.Fits levels asm mark ∧ Meets levels rest (row.run levels asm)

instance (levels : Nat) : ∀ (rows : List (Option Keyword × Row)) (asm : Assembler),
    Decidable (Meets levels rows asm)
  | [], _ => inferInstanceAs (Decidable True)
  | (_, _) :: rest, _ =>
    have := fun asm => instDecidableMeets levels rest asm
    inferInstanceAs (Decidable (_ ∧ _))

theorem feed_cons (levels : Nat) (mark : Option Keyword) (row : Row)
    (rest : List (Option Keyword × Row)) (asm : Assembler) :
    feed levels ((mark, row) :: rest) asm = feed levels rest (row.run levels asm) := rfl

/-- Rows are carried out one after the other. -/
theorem feed_append (levels : Nat) (front back : List (Option Keyword × Row)) (asm : Assembler) :
    feed levels (front ++ back) asm = feed levels back (feed levels front asm) :=
  List.foldl_append

/-- Rows meet their marks one after the other. -/
theorem meets_append (levels : Nat) (front back : List (Option Keyword × Row)) (asm : Assembler) :
    Meets levels (front ++ back) asm ↔
      Meets levels front asm ∧ Meets levels back (feed levels front asm) := by
  induction front generalizing asm with
  | nil => exact ⟨fun h => ⟨trivial, h⟩, fun h => h.2⟩
  | cons marked front ih =>
    rw [List.cons_append, Meets, Meets, ih, and_assoc]
    rfl

@[simp] theorem atLine_atLine (asm : Assembler) (l m : Nat) :
    (asm.atLine l).atLine m = asm.atLine m := rfl

@[simp] theorem withBlocks_atLine (asm : Assembler) (l : Nat) (blocks : List Conditional) :
    (asm.atLine l).withBlocks blocks = (asm.withBlocks blocks).atLine l := rfl

@[simp] theorem withBlocks_withBlocks (asm : Assembler) (blocks blocks' : List Conditional) :
    (asm.withBlocks blocks).withBlocks blocks' = asm.withBlocks blocks' := rfl

/-- The blocks that are open already. -/
@[simp] theorem withBlocks_self (asm : Assembler) :
    asm.withBlocks asm.state.conditionals = asm := rfl

@[simp] theorem atLine_self (asm : Assembler) : asm.atLine asm.state.line = asm := rfl

/-- No macro definition and no repeat is open. -/
structure Plain (asm : Assembler) : Prop where
  macroDefs : asm.state.macroDefs = []
  repeats : asm.state.repeats = []

theorem Plain.atLine {asm : Assembler} (h : asm.Plain) (line : Nat) : (asm.atLine line).Plain :=
  ⟨h.macroDefs, h.repeats⟩

theorem Plain.withBlocks {asm : Assembler} (h : asm.Plain) (blocks : List Conditional) :
    (asm.withBlocks blocks).Plain :=
  ⟨h.macroDefs, h.repeats⟩

/-- Computing a condition leaves the assembler plain. -/
theorem Plain.condition {asm : Assembler} (h : asm.Plain) (keyword : Keyword) (row : Row) :
    (asm.condition keyword row).2.Plain := by
  obtain ⟨random, diagnostics, hevaluated⟩ := asm.condition_footprint keyword row
  rw [hevaluated]
  exact ⟨h.macroDefs, h.repeats⟩

end Assembler

/-! ## What delimiters do -/

namespace State

variable (st : State) {top : Conditional} {outer : List Conditional}

/-- Where everything around is live, `IF` opens a block by its condition. -/
theorem beginIf_of_live (h : st.conditionsTrue = true) (word : Token) (e : Expr) :
    st.beginIf word [e] = { (st.number e).2 with
      conditionals := ⟨(st.number e).1 != 0, (st.number e).1 != 0⟩ :: st.conditionals } := by
  rw [beginIf, if_pos h]
  rfl

/-- Where something around is not live, `IF` opens a block that never is, and computes nothing. -/
theorem beginIf_of_dead (h : st.conditionsTrue = false) (word : Token) (args : List Expr) :
    st.beginIf word args = { st with conditionals := ⟨false, true⟩ :: st.conditionals } := by
  rw [beginIf, h]
  rfl

/-- `ELIF` computes its condition when no branch was live so far. -/
theorem nextIf_of_open (hc : st.conditionals = top :: outer)
    (ho : outer.all (·.condition) = true) (htop : top.taken = false) (word : Token) (e : Expr) :
    st.nextIf word [e] = { (st.number e).2 with
      conditionals := ⟨(st.number e).1 != 0, (st.number e).1 != 0⟩ :: outer } := by
  rw [nextIf, outerConditionsTrue, hc]
  dsimp only
  rw [List.tail_cons, ho, htop]
  rfl

/-- `ELIF` computes nothing when a branch was live. -/
theorem nextIf_of_taken (hc : st.conditionals = top :: outer) (htop : top.taken = true)
    (word : Token) (args : List Expr) :
    st.nextIf word args = { st with conditionals := ⟨false, true⟩ :: outer } := by
  rw [nextIf, hc]
  dsimp only
  rw [htop]
  rfl

/-- `ELSE` makes the block live unless a branch was. -/
theorem lastIf_of_cons (hc : st.conditionals = top :: outer) (word : Token) :
    st.lastIf word = { st with conditionals := ⟨!top.taken, true⟩ :: outer } := by
  rw [lastIf, hc]

/-- `ENDC` closes the innermost block. -/
theorem endIf_of_cons (hc : st.conditionals = top :: outer) (word : Token) :
    st.endIf word = { st with conditionals := outer } := by
  rw [endIf, hc]

end State

/-- A delimiter is carried out whether the block is live or not. -/
theorem State.passOver?_of_delimiter (st : State) (hm : st.macroDefs = []) (hr : st.repeats = [])
    {line : Nat} {cs : List Char} {keyword : Keyword} {word : Token}
    (h : findKeyword? blockWords (st.rawTokens line cs) = some (keyword, word)) :
    st.passOver? (st.rawTokens line cs) =
      if st.asks keyword then none else some (bareKeyword line word) := by
  rw [st.passOver?_of_plain hm hr, h]
  cases keyword <;> rfl

namespace Row

open Assembler

variable {levels : Nat} {row : Row} {asm : Assembler}

/-- A row is carried out with the levels that are left. -/
theorem exists_run_eq (levels : Nat) (row : Row) :
    ∃ next, row.run levels = runLine next row.number row.text := by
  cases levels with
  | zero => exact ⟨none, rfl⟩
  | succ levels => exact ⟨some (runner levels), rfl⟩

/-- A delimiter whose condition is not asked for is its keyword alone. -/
theorem run_unasked (hp : asm.Plain) {keyword : Keyword} (hw : row.written asm = some keyword)
    (hasks : asm.state.asks keyword = false) :
    ∃ next word, row.run levels asm =
      (asm.atLine row.number).keywordBody next keyword none word [] := by
  obtain ⟨next, hrun⟩ := row.exists_run_eq levels
  obtain ⟨word, hfound, hk⟩ := State.writtenKeyword?_eq_some hw
  have hpass := asm.state.passOver?_of_delimiter hp.macroDefs hp.repeats hfound
  rw [hasks] at hpass
  have harity : (keyword.checksOwnArity || keyword.arity.accepts 0) = true := by
    have hmem := (findKeyword?_eq_some hfound).2
    simp only [List.mem_cons, List.not_mem_nil, or_false] at hmem
    rcases hmem with rfl | rfl | rfl | rfl <;> rfl
  exact ⟨next, word, by rw [hrun, runLine_of_bare next hpass hk harity]⟩

/-- A line that is not passed over is parsed as it is read. -/
theorem parsed?_of_read {parsed : Line} {st : State}
    (hpass : asm.state.passOver? (asm.state.rawTokens row.number row.text.toList) = none)
    (hread : (asm.atLine row.number).state.read row.number row.text = (.line parsed, st)) :
    parsed? row.number row.text asm = some (parsed, { asm with state := st }) := by
  have hreached : (asm.atLine row.number).state.passOver?
      ((asm.atLine row.number).state.rawTokens row.number row.text.toList) = none := hpass
  have hst : statement row.number row.text (asm.atLine row.number).state = (.line parsed, st) := by
    unfold statement
    dsimp only
    rw [hreached]
    exact hread
  have hst' : statement row.number row.text { asm.state with line := row.number } = _ := hst
  unfold parsed?
  rw [hst']

/-- A delimiter whose condition is asked for is its keyword with the condition. -/
theorem run_asked (hp : asm.Plain) {keyword : Keyword} (hw : row.written asm = some keyword)
    (hasks : asm.state.asks keyword = true) (hform : row.isWellFormed keyword asm = true) :
    ∃ next word e st, st.conditionals = asm.state.conditionals ∧
      asm.condition keyword row = ((st.number e).1 != 0, { asm with state := (st.number e).2 }) ∧
      row.run levels asm =
        ({ asm with state := st } : Assembler).keywordBody next keyword none word [e] := by
  obtain ⟨next, hrun⟩ := row.exists_run_eq levels
  obtain ⟨found, hfound, -⟩ := State.writtenKeyword?_eq_some hw
  have hpass := asm.state.passOver?_of_delimiter hp.macroDefs hp.repeats hfound
  rw [hasks] at hpass
  obtain ⟨⟨word, e⟩, hargument⟩ := Option.isSome_iff_exists.1 hform
  obtain ⟨parsed, hparsed, hsole⟩ := Statement.argument?_eq_some hargument
  obtain ⟨hlabel, hop, hk⟩ := Line.argument?_eq_some hsole
  have harity : (keyword.checksOwnArity || keyword.arity.accepts 1) = true := by
    cases keyword with
    | ifTrue => rfl
    | elseIf => rfl
    | _ => exact absurd hasks (by simp [State.asks])
  refine ⟨next, word, e, ((asm.atLine row.number).state.read row.number row.text).2, rfl, ?_, ?_⟩
  · unfold condition
    dsimp only
    rw [hargument]
  · have hread := parsed?_of_read hpass (Prod.ext hparsed rfl)
    rw [hrun, runLine_of_parsed? next hread, execute_keyword next hlabel hop hk harity]

/-- A line of a dead branch does nothing. -/
theorem run_dead (hp : asm.Plain) (hdead : asm.state.conditionsTrue = false)
    (hw : row.written asm = none) : row.run levels asm = asm.atLine row.number := by
  obtain ⟨next, hrun⟩ := row.exists_run_eq levels
  have hpass := asm.state.passOver?_of_plain hp.macroDefs hp.repeats row.number row.text.toList
  rw [State.writtenKeyword?_eq_none hw, hdead] at hpass
  rw [hrun, runLine_of_ignored next hpass]

/-- In a live branch, a block is opened with its first condition. -/
theorem run_if (hp : asm.Plain) (hlive : asm.state.conditionsTrue = true)
    (h : row.Fits levels asm (some .ifTrue)) :
    row.run levels asm = (asm.condition .ifTrue row).2.withBlocks
      (⟨(asm.condition .ifTrue row).1, (asm.condition .ifTrue row).1⟩ ::
        asm.state.conditionals) := by
  obtain ⟨next, word, e, st, hst, hcondition, hrun⟩ :=
    @run_asked levels row asm hp _ h.1 hlive (h.2 hlive)
  have hlive' : st.conditionsTrue = true := by
    rw [State.conditionsTrue, hst]
    exact hlive
  rw [hrun, hcondition, ← hst]
  exact congrArg (fun st => { asm with state := st }) (st.beginIf_of_live hlive' word e)

/-- In a dead branch, a block is opened of which no branch can be live. -/
theorem run_if_dead (hp : asm.Plain) (hdead : asm.state.conditionsTrue = false)
    (hw : row.written asm = some .ifTrue) :
    row.run levels asm =
      (asm.withBlocks (⟨false, true⟩ :: asm.state.conditionals)).atLine row.number := by
  obtain ⟨next, word, hrun⟩ := @run_unasked levels row asm hp _ hw hdead
  rw [hrun]
  exact congrArg (fun st => { asm with state := st })
    ((asm.atLine row.number).state.beginIf_of_dead hdead word [])

section Turning

variable {outer : List Conditional} {top : Conditional}
  (hc : asm.state.conditionals = top :: outer)

include hc

/-- As long as no branch of a block was live, the next condition decides. -/
theorem run_elif (hp : asm.Plain) (ho : outer.all (·.condition) = true)
    (htop : top.taken = false) (h : row.Fits levels asm (some .elseIf)) :
    row.run levels asm = (asm.condition .elseIf row).2.withBlocks
      (⟨(asm.condition .elseIf row).1, (asm.condition .elseIf row).1⟩ :: outer) := by
  have hopen : asm.state.asks .elseIf = true := by
    show asm.state.branchOpen = true
    rw [State.branchOpen, State.outerConditionsTrue, hc, List.tail_cons, ho, List.head?_cons,
      Option.any_some, htop]
    rfl
  obtain ⟨next, word, e, st, hst, hcondition, hrun⟩ :=
    @run_asked levels row asm hp _ h.1 hopen (h.2 hopen)
  rw [hrun, hcondition]
  exact congrArg (fun st => { asm with state := st })
    (st.nextIf_of_open (hst.trans hc) ho htop word e)

/-- The next branch of a block with a live branch is dead. -/
theorem run_elif_taken (hp : asm.Plain) (htop : top.taken = true)
    (hw : row.written asm = some .elseIf) :
    row.run levels asm = (asm.withBlocks (⟨false, true⟩ :: outer)).atLine row.number := by
  have hclosed : asm.state.asks .elseIf = false := by
    show asm.state.branchOpen = false
    rw [State.branchOpen, hc, List.head?_cons, Option.any_some, htop]
    exact Bool.and_false _
  obtain ⟨next, word, hrun⟩ := @run_unasked levels row asm hp _ hw hclosed
  rw [hrun]
  exact congrArg (fun st => { asm with state := st })
    ((asm.atLine row.number).state.nextIf_of_taken hc htop word [])

/-- The last branch of a block is live when no other was. -/
theorem run_else (hp : asm.Plain) (hw : row.written asm = some .elseAll) :
    row.run levels asm =
      (asm.withBlocks (⟨!top.taken, true⟩ :: outer)).atLine row.number := by
  obtain ⟨next, word, hrun⟩ := @run_unasked levels row asm hp _ hw rfl
  rw [hrun]
  exact congrArg (fun st => { asm with state := st })
    ((asm.atLine row.number).state.lastIf_of_cons hc word)

/-- `ENDC` does nothing but close the innermost block. -/
theorem run_endc (hp : asm.Plain) (hw : row.written asm = some .endIf) :
    row.run levels asm = (asm.withBlocks outer).atLine row.number := by
  obtain ⟨next, word, hrun⟩ := @run_unasked levels row asm hp _ hw rfl
  rw [hrun]
  exact congrArg (fun st => { asm with state := st })
    ((asm.atLine row.number).state.endIf_of_cons hc word)

end Turning

end Row

open Assembler

/-! ## Branches that are not selected -/

mutual

/-- Carrying out a listing in a dead branch does nothing. -/
theorem Listing.feed_dead (levels : Nat) (listing : Listing) (asm : Assembler) (hp : asm.Plain)
    (hdead : asm.state.conditionsTrue = false) (h : Meets levels listing.rows asm) :
    ∃ l, feed levels listing.rows asm = asm.atLine l := by
  cases listing with
  | done => exact ⟨asm.state.line, rfl⟩
  | line row rest =>
    obtain ⟨hrow, hrest⟩ := h
    have hrun : row.run levels asm = _ := Row.run_dead hp hdead hrow.1
    rw [hrun] at hrest
    obtain ⟨l, hl⟩ := rest.feed_dead levels _ (hp.atLine row.number) hdead hrest
    exact ⟨l, by rw [Listing.rows, feed_cons, hrun, hl, atLine_atLine]⟩
  | block opening body branches rest =>
    obtain ⟨hopening, hrest⟩ := h
    have hrun : opening.run levels asm = _ := Row.run_if_dead hp hdead hopening.1
    rw [hrun, meets_append, meets_append] at hrest
    obtain ⟨⟨hbody, hbranches⟩, hrest⟩ := hrest
    have hp' := hp.withBlocks (⟨false, true⟩ :: asm.state.conditionals)
    -- The block opens as one whose branch was taken, so none of its branches is live.
    obtain ⟨l, hl⟩ := body.feed_dead levels _ (hp'.atLine opening.number) rfl hbody
    rw [atLine_atLine] at hl
    rw [feed_append, hl] at hrest
    rw [hl] at hbranches
    obtain ⟨l', hl'⟩ := branches.feed_taken levels _ (hp'.atLine l) rfl rfl hbranches
    rw [withBlocks_atLine, withBlocks_withBlocks, withBlocks_self, atLine_atLine] at hl'
    rw [hl'] at hrest
    obtain ⟨l'', hl''⟩ := rest.feed_dead levels _ (hp.atLine l') hdead hrest
    refine ⟨l'', ?_⟩
    rw [Listing.rows, feed_cons, hrun, feed_append, feed_append, hl, hl', hl'', atLine_atLine]

/-- Carrying out the branches behind one that was live only closes the block. -/
theorem Branches.feed_taken (levels : Nat) (branches : Branches) (asm : Assembler)
    (hp : asm.Plain) {top : Conditional} {outer : List Conditional}
    (hc : asm.state.conditionals = top :: outer) (htop : top.taken = true)
    (h : Meets levels branches.rows asm) :
    ∃ l, feed levels branches.rows asm = (asm.withBlocks outer).atLine l := by
  cases branches with
  | close row => exact ⟨row.number, Row.run_endc hc hp h.1.1⟩
  | last row body close =>
    obtain ⟨hrow, hrest⟩ := h
    have hrun : row.run levels asm = _ := Row.run_else hc hp hrow.1
    -- The last branch is live only where none was taken.
    rw [htop, Bool.not_true] at hrun
    rw [hrun, meets_append] at hrest
    obtain ⟨hbody, hclose, -⟩ := hrest
    have hp' := hp.withBlocks (⟨false, true⟩ :: outer)
    obtain ⟨l, hl⟩ := body.feed_dead levels _ (hp'.atLine row.number) rfl hbody
    rw [atLine_atLine] at hl
    rw [hl] at hclose
    have hend : close.run levels _ = _ := Row.run_endc rfl (hp'.atLine l) hclose.1
    rw [withBlocks_atLine, withBlocks_withBlocks, atLine_atLine] at hend
    refine ⟨close.number, ?_⟩
    rw [Branches.rows, feed_cons, hrun, feed_append, hl, feed_cons, hend]
    rfl
  | next row body others =>
    obtain ⟨hrow, hrest⟩ := h
    have hrun : row.run levels asm = _ := Row.run_elif_taken hc hp htop hrow.1
    rw [hrun, meets_append] at hrest
    obtain ⟨hbody, hothers⟩ := hrest
    have hp' := hp.withBlocks (⟨false, true⟩ :: outer)
    obtain ⟨l, hl⟩ := body.feed_dead levels _ (hp'.atLine row.number) rfl hbody
    rw [atLine_atLine] at hl
    rw [hl] at hothers
    obtain ⟨l', hl'⟩ := others.feed_taken levels _ (hp'.atLine l) rfl rfl hothers
    rw [withBlocks_atLine, withBlocks_withBlocks, atLine_atLine] at hl'
    exact ⟨l', by rw [Branches.rows, feed_cons, hrun, feed_append, hl, hl']⟩

end

/-! ## Branches that are selected -/

/-- What leads from one assembler to another, in whatever blocks they stand, is what a function
does in these blocks instead, up to the line. -/
structure Follows (outer : List Conditional) (f : Assembler → Assembler)
    (before after : Assembler) : Prop where
  plain : after.Plain
  alike : ∀ l, ∃ l', f ((before.withBlocks outer).atLine l) = (after.withBlocks outer).atLine l'

namespace Follows

variable {outer : List Conditional} {f g : Assembler → Assembler} {a b c : Assembler}

/-- What follows in two stretches follows in one. -/
theorem trans (h : Follows outer f a b) (h' : Follows outer g b c) :
    Follows outer (fun asm => g (f asm)) a c where
  plain := h'.plain
  alike l := by
    obtain ⟨m, hm⟩ := h.alike l
    obtain ⟨l', hl⟩ := h'.alike m
    exact ⟨l', by rw [hm, hl]⟩

/-- Only the blocks and the line change. -/
theorem skip (hp : a.Plain) (blocks : List Conditional) (line : Nat) :
    Follows outer (fun asm => asm) a ((a.withBlocks blocks).atLine line) where
  plain := (hp.withBlocks blocks).atLine line
  alike l := ⟨l, rfl⟩

/-- A condition gives the same answer outside of the blocks. -/
theorem choose {keyword : Keyword} {row : Row} {blocks : List Conditional}
    (h : Follows outer (if (a.condition keyword row).1 then f else g)
      ((a.condition keyword row).2.withBlocks blocks) b) :
    Follows outer (fun asm =>
      if (asm.condition keyword row).1 then f (asm.condition keyword row).2
      else g (asm.condition keyword row).2) a b where
  plain := h.plain
  alike l := by
    have hsame : ((a.withBlocks outer).atLine l).condition keyword row = _ :=
      a.condition_withBlocks outer keyword row
    obtain ⟨l', hl⟩ := h.alike (a.condition keyword row).2.state.line
    have hline : ∀ e : Assembler, (e.withBlocks outer).atLine e.state.line = e.withBlocks outer :=
      fun _ => rfl
    rw [withBlocks_withBlocks, hline] at hl
    refine ⟨l', ?_⟩
    rw [← hl, hsame]
    dsimp only
    split
    · rfl
    · rfl

end Follows

/-- An assembler in a live branch, either outside of the blocks of a listing or in one of them. -/
structure Live (outer : List Conditional) (asm : Assembler) : Prop extends Plain asm where
  conditionsTrue : asm.state.conditionsTrue = true
  place : asm.state.conditionals = outer ∨
    ∃ inner, asm.state.conditionals = ⟨true, true⟩ :: inner

/-- What leaves the blocks as they are leaves them live. -/
theorem Live.of_conditionals {outer : List Conditional} {a b : Assembler} (h : Live outer a)
    (hp : b.Plain) (hc : b.state.conditionals = a.state.conditionals) : Live outer b where
  toPlain := hp
  conditionsTrue := by
    rw [State.conditionsTrue, hc]
    exact h.conditionsTrue
  place := by
    rw [hc]
    exact h.place

/-- A tidy line of a live branch. -/
theorem Row.follows {levels : Nat} {outer : List Conditional}
    (ho : outer.all (·.condition) = true) {row : Row} {asm : Assembler} (hlive : Live outer asm)
    (htidy : row.Tidy levels asm) :
    Follows outer (row.run levels) asm (row.run levels asm) where
  plain := ⟨htidy.macroDefs.trans hlive.macroDefs, htidy.repeats.trans hlive.repeats⟩
  alike l := by
    have hthere : row.run levels (asm.withBlocks outer) =
        (row.run levels asm).withBlocks outer := by
      rcases hlive.place with rfl | ⟨inner, hc⟩
      · have hself : (row.run levels asm).withBlocks asm.state.conditionals =
            row.run levels asm := by
          rw [← htidy.conditionals]
          rfl
        exact hself.symm
      · have hinner := hlive.conditionsTrue
        rw [State.conditionsTrue, hc] at hinner
        exact runner_withBlocks hc hinner htidy.apart htidy.conditionals ho
    refine ⟨((row.run levels asm).withBlocks outer).state.line, ?_⟩
    rw [Row.run, runner_atLine]
    exact hthere

/-- A listing does in a live branch what it does when it is assembled outside of it. -/
def Listing.Traced (levels : Nat) (outer : List Conditional) (listing : Listing) : Prop :=
  ∀ asm : Assembler, Live outer asm → Meets levels listing.rows asm →
    (feed levels listing.rows asm).state.conditionals = asm.state.conditionals ∧
      Follows outer (listing.assemble levels) asm (feed levels listing.rows asm)

/-- Branches of a block, of which none was live yet, do what they do when they are assembled outside
of it. -/
def Branches.Traced (levels : Nat) (outer : List Conditional) (branches : Branches) : Prop :=
  ∀ (asm : Assembler) (top : Conditional) (inner : List Conditional), asm.Plain →
    asm.state.conditionals = top :: inner → top.taken = false →
    inner.all (·.condition) = true → Meets levels branches.rows asm →
      (feed levels branches.rows asm).state.conditionals = inner ∧
        Follows outer (branches.assemble levels) asm (feed levels branches.rows asm)

section Traced

variable {levels : Nat} {outer : List Conditional} (ho : outer.all (·.condition) = true)
  {body rest : Listing} {branches : Branches}

/-- A branch behind its condition, and the branches that follow it. -/
theorem follows_branch (hbody : body.Traced levels outer) (hbranches : branches.Traced levels outer)
    {asm : Assembler} (hp : asm.Plain) {holds : Bool} {inner : List Conditional}
    (hc : asm.state.conditionals = ⟨holds, holds⟩ :: inner)
    (hinner : inner.all (·.condition) = true)
    (h : Meets levels (body.rows ++ branches.rows) asm) :
    (feed levels (body.rows ++ branches.rows) asm).state.conditionals = inner ∧
      Follows outer (if holds then body.assemble levels else branches.assemble levels) asm
        (feed levels (body.rows ++ branches.rows) asm) := by
  rw [meets_append] at h
  rw [feed_append]
  have hlive : asm.state.conditionsTrue = holds := by
    rw [State.conditionsTrue, hc, List.all_cons, hinner, Bool.and_true]
  cases holds with
  | true =>
    obtain ⟨hsame, hfollows⟩ := hbody asm ⟨hp, hlive, Or.inr ⟨inner, hc⟩⟩ h.1
    obtain ⟨l, hl⟩ := branches.feed_taken levels _ hfollows.plain (hsame.trans hc) rfl h.2
    rw [hl]
    exact ⟨rfl, hfollows.trans (Follows.skip hfollows.plain inner l)⟩
  | false =>
    obtain ⟨l, hl⟩ := body.feed_dead levels asm hp hlive h.1
    rw [hl] at h ⊢
    obtain ⟨hclosed, hfollows⟩ := hbranches _ _ inner (hp.atLine l) hc rfl hinner h.2
    exact ⟨hclosed, (Follows.skip hp asm.state.conditionals l).trans hfollows⟩

include ho in
/-- A row in front of a listing that is traced. -/
theorem traced_line (row : Row) (hrest : rest.Traced levels outer) :
    (Listing.line row rest).Traced levels outer := by
  intro asm hlive h
  obtain ⟨hrow, hmeets⟩ := h
  have htidy := hrow.2 hlive.conditionsTrue
  have hfollows := row.follows ho hlive htidy
  obtain ⟨hsame, hfollows'⟩ := hrest _
    (hlive.of_conditionals hfollows.plain htidy.conditionals) hmeets
  exact ⟨hsame.trans htidy.conditionals, hfollows.trans hfollows'⟩

/-- A block in front of a listing that is traced. -/
theorem traced_block (opening : Row) (hbody : body.Traced levels outer)
    (hbranches : branches.Traced levels outer) (hrest : rest.Traced levels outer) :
    (Listing.block opening body branches rest).Traced levels outer := by
  intro asm hlive h
  obtain ⟨hopening, hmeets⟩ := h
  have hrun : opening.run levels asm = _ :=
    Row.run_if hlive.toPlain hlive.conditionsTrue hopening
  rw [hrun, meets_append] at hmeets
  obtain ⟨hclosed, hfollows⟩ := follows_branch hbody hbranches
    ((hlive.toPlain.condition _ opening).withBlocks _) rfl hlive.conditionsTrue hmeets.1
  obtain ⟨hsame, hfollows'⟩ := hrest _ (hlive.of_conditionals hfollows.plain hclosed) hmeets.2
  rw [Listing.rows, feed_cons, hrun, feed_append]
  exact ⟨hsame.trans hclosed, hfollows.choose.trans hfollows'⟩

/-- A block that ends. -/
theorem traced_close (row : Row) : (Branches.close row).Traced levels outer := by
  intro asm top inner hp hc _ _ h
  have hrun : row.run levels asm = _ := Row.run_endc hc hp h.1.1
  rw [Branches.rows, feed_cons, hrun]
  exact ⟨rfl, Follows.skip hp inner row.number⟩

/-- The last branch of a block, behind `ELSE`. -/
theorem traced_last (row : Row) (hbody : body.Traced levels outer) (close : Row) :
    (Branches.last row body close).Traced levels outer := by
  intro asm top inner hp hc htop hinner h
  obtain ⟨hrow, hmeets⟩ := h
  have hrun : row.run levels asm = _ := Row.run_else hc hp hrow.1
  rw [htop, Bool.not_false] at hrun
  rw [hrun, meets_append] at hmeets
  obtain ⟨hmeets, hclose, -⟩ := hmeets
  have hp' := (hp.withBlocks (⟨true, true⟩ :: inner)).atLine row.number
  obtain ⟨hsame, hfollows⟩ := hbody _ ⟨hp', hinner, Or.inr ⟨inner, rfl⟩⟩ hmeets
  have hend : close.run levels (feed levels body.rows _) = _ :=
    Row.run_endc hsame hfollows.plain hclose.1
  rw [Branches.rows, feed_cons, hrun, feed_append, feed_cons, hend]
  exact ⟨rfl, (Follows.skip hp _ row.number).trans
    (hfollows.trans (Follows.skip hfollows.plain inner close.number))⟩

/-- A branch behind `ELIF`, and those that follow it. -/
theorem traced_next (row : Row) (hbody : body.Traced levels outer)
    (hbranches : branches.Traced levels outer) :
    (Branches.next row body branches).Traced levels outer := by
  intro asm top inner hp hc htop hinner h
  obtain ⟨hrow, hmeets⟩ := h
  have hrun : row.run levels asm = _ := Row.run_elif hc hp hinner htop hrow
  rw [hrun] at hmeets
  obtain ⟨hclosed, hfollows⟩ := follows_branch hbody hbranches
    ((hp.condition _ row).withBlocks _) rfl hinner hmeets
  rw [Branches.rows, feed_cons, hrun]
  exact ⟨hclosed, hfollows.choose⟩

end Traced

mutual

/-- Every listing is traced, by induction over its blocks. -/
theorem Listing.traced (levels : Nat) {outer : List Conditional}
    (ho : outer.all (·.condition) = true) : ∀ listing : Listing, listing.Traced levels outer
  | .done => fun asm hlive _ =>
    ⟨rfl, Follows.skip hlive.toPlain asm.state.conditionals asm.state.line⟩
  | .line row rest => traced_line ho row (rest.traced levels ho)
  | .block opening body branches rest =>
    traced_block opening (body.traced levels ho) (branches.traced levels ho) (rest.traced levels ho)

/-- The branches of every block are traced. -/
theorem Branches.traced (levels : Nat) {outer : List Conditional}
    (ho : outer.all (·.condition) = true) : ∀ branches : Branches, branches.Traced levels outer
  | .close row => traced_close row
  | .last row body close => traced_last row (body.traced levels ho) close
  | .next row body others =>
    traced_next row (body.traced levels ho) (others.traced levels ho)

end

/-- Carrying out all lines of a listing in order is assembling it, up to the line: the conditions of
each block that is reached are evaluated until one holds, and only the lines of the branches that
are selected are carried out. The conditional blocks end as they started. -/
theorem Listing.feed_eq_assemble (levels : Nat) (listing : Listing) (asm : Assembler)
    (hm : asm.state.macroDefs = []) (hr : asm.state.repeats = [])
    (hlive : asm.state.conditionsTrue = true) (h : Meets levels listing.rows asm) :
    (∃ l, feed levels listing.rows asm = (listing.assemble levels asm).atLine l) ∧
      (feed levels listing.rows asm).state.conditionals = asm.state.conditionals := by
  obtain ⟨hsame, hfollows⟩ :=
    listing.traced levels hlive asm ⟨⟨hm, hr⟩, hlive, Or.inl rfl⟩ h
  obtain ⟨l, hl⟩ := hfollows.alike asm.state.line
  rw [withBlocks_self, atLine_self, ← hsame, withBlocks_self] at hl
  exact ⟨⟨(feed levels listing.rows asm).state.line, by rw [hl, atLine_atLine, atLine_self]⟩, hsame⟩

/-- An assembler with a variable, and with a macro that holds a conditional block. -/
def branchingStart : Assembler :=
  ((new {} (.memory {})).load "a" "bump: MACRO\n IF n == 2\nn = 3\n ENDC\n ENDM\n").mapState
    fun st => { st with
      vars := st.vars.insert "n" ⟨"a", [1], 2⟩
      macros := st.macros.insert "bump" ⟨"a", 1, 5⟩ }

/-- A block whose second branch is selected, which calls the macro. -/
def branchingListing : Listing :=
  .block ⟨1, " IF n == 1"⟩
    (.block ⟨2, " IF missing"⟩ .done (.close ⟨3, " ENDC"⟩) .done)
    (.next ⟨4, " ELIF n == 2"⟩ (.line ⟨5, " bump"⟩ .done)
      (.last ⟨6, " ELSE"⟩ (.line ⟨7, "n = 4"⟩ .done) ⟨8, " ENDC"⟩))
    .done

theorem Listing.feed_eq_assemble_branchingListing :
    (∃ l, feed branchingStart.state.config.maxDepth branchingListing.rows branchingStart =
      (branchingListing.assemble branchingStart.state.config.maxDepth branchingStart).atLine l) ∧
      (feed branchingStart.state.config.maxDepth branchingListing.rows
        branchingStart).state.conditionals = branchingStart.state.conditionals :=
  branchingListing.feed_eq_assemble _ branchingStart (by decide +kernel) (by decide +kernel)
    (by decide +kernel) (by decide +kernel)

end Sm83Asm
