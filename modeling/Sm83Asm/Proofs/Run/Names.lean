import Sm83Asm.Proofs.Run.Changes

set_option autoImplicit false

/-!
# The meanings of a name

A name may stand in five tables. Every operation that defines one looks it up in all of them first,
except that `SET` and `=` do not look at the labels. So a name has one meaning all along a run, or
it is a label that one of these two has made a variable as well.

For this a label must not look like the rest of a local one: labels never start with a point,
because the global label in front of a local one does not (`LabelsRooted`).

Main statement: `meanings_along_run`, with `reassigned_label_has_two_meanings` for the case that is
left open.
-/

namespace Sm83Asm

/-- What a name can stand for. -/
inductive Meaning where
  | number
  | string
  | var
  | macroBody
  | label
deriving DecidableEq, Repr

/-- A name that is no local one: it starts with something other than a point. -/
def Rooted (name : String) : Prop := ∃ c cs, name.toList = c :: cs ∧ c ≠ '.'

namespace Stores

/-- Whether a name stands in the table of a meaning. -/
def Has (s : Stores) (name : String) : Meaning → Prop
  | .number => name ∈ s.numbers.keys
  | .string => name ∈ s.strings.keys
  | .var => name ∈ s.vars.keys
  | .macroBody => name ∈ s.macros.keys
  | .label => name ∈ s.labels.keys

instance (s : Stores) (name : String) : DecidablePred (s.Has name)
  | .number => inferInstanceAs (Decidable (_ ∈ _))
  | .string => inferInstanceAs (Decidable (_ ∈ _))
  | .var => inferInstanceAs (Decidable (_ ∈ _))
  | .macroBody => inferInstanceAs (Decidable (_ ∈ _))
  | .label => inferInstanceAs (Decidable (_ ∈ _))

/-- All meanings of a name. -/
def meanings (s : Stores) (name : String) : List Meaning :=
  [.number, .string, .var, .macroBody, .label].filter (s.Has name)

/-! ## Labels and points -/

/-- Neither a label nor the part of one that is put in front of local names starts with a point. -/
structure LabelsRooted (s : Stores) : Prop where
  labels : ∀ name ∈ s.labels.keys, Rooted name
  global : ∀ name ∈ s.globalLabel, Rooted name
  saved : ∀ scope ∈ s.savedScopes, ∀ name ∈ scope.globalLabel, Rooted name

variable {word : Option Keyword} {a b s : Stores} {name full : String}

theorem qualify_of_rooted (s : Stores) (h : Rooted name) : s.qualify name = some name := by
  obtain ⟨c, cs, hname, hc⟩ := h
  unfold qualify
  split
  · rename_i heq
    rw [hname] at heq
    exact absurd (List.cons.inj heq).1 hc
  · rfl

/-- In full, a name starts with the global label if it starts with a point. -/
theorem rooted_of_qualify (hglobal : ∀ g ∈ s.globalLabel, Rooted g) (hname : name ≠ "")
    (h : s.qualify name = some full) : Rooted full := by
  unfold qualify at h
  split at h
  · obtain ⟨g, hg, rfl⟩ := Option.map_eq_some_iff.1 h
    obtain ⟨c, cs, hcs, hc⟩ := hglobal g hg
    exact ⟨c, cs ++ name.toList, by rw [String.toList_append, hcs]; rfl, hc⟩
  · rename_i hpoint
    obtain rfl := Option.some.inj h
    cases hcs : name.toList with
    | nil => exact absurd (String.toList_eq_nil_iff.1 hcs) hname
    | cons c cs => exact ⟨c, cs, hcs, fun hc => hpoint cs (hc ▸ hcs)⟩

theorem LabelsRooted.of_change (hr : a.LabelsRooted) (h : Change word a b) : b.LabelsRooted := by
  cases h with
  | label entry hname hq _ hnew =>
    have hfull := rooted_of_qualify hr.global hname hq
    refine { hr with labels := fun other hother => ?_, global := fun g hg => ?_ }
    · rcases Table.mem_keys_insert.1 hother with hother | rfl
      · exact hr.labels other hother
      · exact hfull
    · dsimp only at hg
      split at hg
      · exact hr.global g hg
      · obtain rfl := Option.some.inj hg
        exact hfull
  | relabel name hf =>
    refine { hr with labels := fun other hother => hr.labels other ?_ }
    rwa [Table.keys_modify] at hother
  | purgeLabel =>
    refine { hr with labels := fun other hother => ?_ }
    exact hr.labels other (Table.mem_keys_erase.1 hother).1
  | push =>
    refine { hr with global := fun g hg => absurd hg (by simp), saved := fun scope hscope => ?_ }
    rcases List.mem_cons.1 hscope with rfl | hscope
    · exact hr.global
    · exact hr.saved scope hscope
  | pop _ hsaved =>
    exact { hr with
      global := hr.saved _ (hsaved ▸ List.mem_cons_self)
      saved := fun scope hscope => hr.saved scope (hsaved ▸ List.mem_cons_of_mem _ hscope) }
  | _ => exact { hr with }

/-! ## What a change adds -/

/-- A new name has no meaning at all. -/
theorem Fresh.not_has (hr : s.LabelsRooted) (h : s.Fresh name) (k : Meaning) : ¬ s.Has name k := by
  obtain ⟨hn, hs, hv, hm, hl⟩ := h
  cases k with
  | number => exact hn
  | string => exact hs
  | var => exact hv
  | macroBody => exact hm
  | label => exact fun hmem => hl name (s.qualify_of_rooted (hr.labels name hmem)) hmem

/-- One name has got a meaning at most, and no other name has. -/
def Gives (a b : Stores) (new : String) (k : Meaning) : Prop :=
  ∀ name j, b.Has name j → a.Has name j ∨ name = new ∧ j = k

/-- A change gives a meaning to a name that has none, or a new value to a variable. -/
theorem Change.gives (hr : a.LabelsRooted) (h : Change word a b) :
    (∀ name k, b.Has name k → a.Has name k) ∨
      ∃ new k, Gives a b new k ∧
        ((∀ j, ¬ a.Has new j) ∨
          word = some .set ∧ k = .var ∧ ∀ j, a.Has new j → j = .var ∨ j = .label) := by
  -- The table that is reached gets the new name at most, and the other tables stay as they are.
  cases h with
  | @number new entry hnew =>
    refine Or.inr ⟨new, .number, fun name j hj => ?_, Or.inl (hnew.not_has hr)⟩
    cases j with
    | number => exact (Table.mem_keys_insert.1 hj).imp_right fun h => ⟨h, rfl⟩
    | _ => exact Or.inl hj
  | @string new entry hnew =>
    refine Or.inr ⟨new, .string, fun name j hj => ?_, Or.inl (hnew.not_has hr)⟩
    cases j with
    | string => exact (Table.mem_keys_insert.1 hj).imp_right fun h => ⟨h, rfl⟩
    | _ => exact Or.inl hj
  | @macroBody new entry hnew =>
    refine Or.inr ⟨new, .macroBody, fun name j hj => ?_, Or.inl (hnew.not_has hr)⟩
    cases j with
    | macroBody => exact (Table.mem_keys_insert.1 hj).imp_right fun h => ⟨h, rfl⟩
    | _ => exact Or.inl hj
  | @label _ new entry _ _ hnew hl =>
    refine Or.inr ⟨new, .label, fun name j hj => ?_, Or.inl (hnew.not_has hr)⟩
    cases j with
    | label => exact (Table.mem_keys_insert.1 hj).imp_right fun h => ⟨h, rfl⟩
    | _ => exact Or.inl hj
  | @assign new entry hw hn hs hm =>
    refine Or.inr ⟨new, .var, fun name j hj => ?_, Or.inr ⟨hw, rfl, fun j hj => ?_⟩⟩
    · cases j with
      | var => exact (Table.mem_keys_insert.1 hj).imp_right fun h => ⟨h, rfl⟩
      | _ => exact Or.inl hj
    · cases j with
      | number => exact absurd hj hn
      | string => exact absurd hj hs
      | macroBody => exact absurd hj hm
      | var => exact Or.inl rfl
      | label => exact Or.inr rfl
  | relabel name hf =>
    refine Or.inl fun other k hk => ?_
    cases k with
    | label =>
      have hkey : other ∈ (a.labels.modify name _).keys := hk
      rwa [Table.keys_modify] at hkey
    | _ => exact hk
  | purge name =>
    refine Or.inl fun other k hk => ?_
    cases k with
    | label => exact hk
    | _ => exact (Table.mem_keys_erase.1 hk).1
  | purgeLabel name =>
    refine Or.inl fun other k hk => ?_
    cases k with
    | label => exact (Table.mem_keys_erase.1 hk).1
    | _ => exact hk
  | _ => exact Or.inl fun _ k hk => by cases k <;> exact hk

/-! ## One meaning, or two of a kind -/

/-- A meaning that is not the only one of the name is that of a variable or of a label. -/
def Mixed (s : Stores) (name : String) : Prop :=
  ∀ j k, s.Has name j → s.Has name k → j ≠ k → j = .var ∨ j = .label

theorem Mixed.of_change (hr : a.LabelsRooted) (hm : a.Mixed name) (h : Change word a b) :
    b.Mixed name := by
  intro j k hj hk hne
  rcases h.gives hr with hkeep | ⟨new, added, hgives, hnew⟩
  · exact hm j k (hkeep name j hj) (hkeep name k hk) hne
  rcases hgives name j hj with hj | ⟨rfl, rfl⟩
  · rcases hgives name k hk with hk | ⟨rfl, rfl⟩
    · exact hm j k hj hk hne
    · rcases hnew with hnew | ⟨-, -, hnew⟩
      · exact absurd hj (hnew j)
      · exact hnew j hj
  · rcases hgives name k hk with hk | ⟨-, rfl⟩
    · rcases hnew with hnew | ⟨-, rfl, -⟩
      · exact absurd hk (hnew k)
      · exact Or.inl rfl
    · exact absurd rfl hne

/-- The name of a variable and of a label. -/
def Reassigned (s : Stores) (name : String) : Prop := s.Has name .var ∧ s.Has name .label

/-- Without `SET`, no label becomes a variable as well and no variable a label. -/
theorem not_reassigned_of_change (hr : a.LabelsRooted) (hw : word ≠ some .set)
    (ha : ¬ a.Reassigned name) (h : Change word a b) : ¬ b.Reassigned name := by
  rintro ⟨hvar, hlabel⟩
  rcases h.gives hr with hkeep | ⟨new, added, hgives, hnew⟩
  · exact ha ⟨hkeep name _ hvar, hkeep name _ hlabel⟩
  have habsent : ∀ j, ¬ a.Has new j := hnew.resolve_right fun h => hw h.1
  rcases hgives name _ hvar with hv | ⟨rfl, rfl⟩
  · rcases hgives name _ hlabel with hl | ⟨rfl, -⟩
    · exact ha ⟨hv, hl⟩
    · exact habsent _ hv
  · rcases hgives name _ hlabel with hl | ⟨-, hk⟩
    · exact habsent _ hl
    · exact absurd hk (by simp)

theorem mem_meanings {k : Meaning} : k ∈ s.meanings name ↔ s.Has name k := by
  simp only [meanings, List.mem_filter, decide_eq_true_eq, and_iff_right_iff_imp]
  intro _
  cases k <;> simp

theorem length_meanings_le (hm : s.Mixed name) (h : ¬ s.Reassigned name) :
    (s.meanings name).length ≤ 1 := by
  have hnodup : (s.meanings name).Nodup := List.Pairwise.filter _ (by decide)
  have hhas : ∀ k ∈ s.meanings name, s.Has name k := fun k => mem_meanings.1
  match hl : s.meanings name with
  | [] => simp
  | [_] => simp
  | j :: k :: rest =>
    rw [hl] at hnodup hhas
    have hj := hhas j (by simp)
    have hk := hhas k (by simp)
    have hne : j ≠ k := by simp_all
    -- Of two meanings, both are one of the two that the name has not got together.
    rcases hm j k hj hk hne with rfl | rfl
    · rcases hm k _ hk hj hne.symm with rfl | rfl
      · exact absurd rfl hne
      · exact absurd ⟨hj, hk⟩ h
    · rcases hm k _ hk hj hne.symm with rfl | rfl
      · exact absurd ⟨hk, hj⟩ h
      · exact absurd rfl hne

theorem meanings_eq_of_reassigned (hm : s.Mixed name) (h : s.Reassigned name) :
    s.meanings name = [.var, .label] := by
  obtain ⟨hv, hl⟩ := h
  have hn : ¬ s.Has name .number := fun h => by simpa using hm .number .var h hv (by simp)
  have hs : ¬ s.Has name .string := fun h => by simpa using hm .string .var h hv (by simp)
  have hb : ¬ s.Has name .macroBody := fun h => by simpa using hm .macroBody .var h hv (by simp)
  simp [meanings, hn, hs, hb, hv, hl]

end Stores

open Stores

/-! ## Assignments -/

/-- The name that a line assigns a number to with `SET` or `=`. -/
def Line.assigned? (line : Line) : Option String :=
  if line.word? = some .set then line.label.map (·.name.text) else none

theorem State.assign_keys (st : State) (label : Option LabelDef) (word : Token) (e : Expr)
    {name : String} (h : name ∈ (st.assign label word e).vars.keys) :
    name ∈ st.vars.keys ∨ label.map (·.name.text) = some name := by
  unfold assign at h
  split at h
  · exact Or.inl h
  · dsimp only at h
    split at h
    · exact Or.inl h
    · rcases Table.mem_keys_insert.1 h with h | rfl
      · exact Or.inl h
      · exact Or.inr rfl

namespace Assembler

/-- The name that the line of a visit assigns a number to. -/
def Visit.assigned? (v : Visit) : Option String :=
  (parsed? v.line v.text v.before).bind (·.1.assigned?)

/-- An assignment changes the variables and nothing else. -/
theorem execute_of_set (asm : Assembler) {line : Line} (h : line.word? = some .set) :
    ∃ diagnostics vars,
      (execute none line asm).state.stores = { asm.state.stores with diagnostics, vars } ∧
        ∀ name ∈ vars.keys, name ∈ asm.state.vars.keys ∨ line.assigned? = some name := by
  have hassign : ∀ word e, ∃ diagnostics vars,
      (asm.state.assign line.label word e).stores = { asm.state.stores with diagnostics, vars } ∧
        ∀ name ∈ vars.keys, name ∈ asm.state.vars.keys ∨ line.assigned? = some name := by
    intro word e
    have hkeys := fun name => @State.assign_keys asm.state line.label word e name
    obtain ⟨random, diagnostics, vars, heq⟩ := asm.state.assign_footprint line.label word e
    rw [heq] at hkeys ⊢
    refine ⟨diagnostics, vars, rfl, fun name hname => ?_⟩
    rw [Line.assigned?, if_pos h]
    exact hkeys name hname
  rcases Line.word?_cases h with ⟨word, args, hline⟩ | ⟨-, word, e, hop⟩ | hraw
  · rw [asm.execute_of_isKeyword none hline]
    rcases args with _ | ⟨e, _ | ⟨e', rest⟩⟩
    · exact ⟨_, _, rfl, fun name hname => Or.inl hname⟩
    · exact hassign word e
    · exact ⟨_, _, rfl, fun name hname => Or.inl hname⟩
  · unfold execute
    rw [hop]
    exact hassign word e
  · exact absurd hraw (by simp [Keyword.takesRawText])

theorem stores_of_set {v : Visit} (h : v.word? = some .set) :
    ∃ diagnostics vars,
      (runLine none v.line v.text v.before).state.stores =
          { v.before.state.stores with diagnostics, vars } ∧
        ∀ name ∈ vars.keys, name ∈ v.before.state.vars.keys ∨ v.assigned? = some name := by
  obtain ⟨⟨parsed, asm⟩, hp, hword⟩ := Option.bind_eq_some_iff.1 h
  obtain ⟨diagnostics, vars, hstores, hkeys⟩ := asm.execute_of_set hword
  obtain ⟨reported, rfl⟩ := parsed?_footprint hp
  refine ⟨diagnostics, vars, ?_, ?_⟩
  · rw [runLine_of_parsed? none hp, hstores]
    rfl
  · rw [Visit.assigned?, hp]
    exact hkeys

/-! ## Runs -/

theorem labelsRooted_new (config : Config) (files : FileStore) :
    (new config files).state.stores.LabelsRooted where
  labels name h := absurd h (by simp [new, State.stores, State.ofConfig, Table.keys])
  global name h := absurd h (by simp [new, State.stores, State.ofConfig])
  saved scope h := absurd h (by simp [new, State.stores, State.ofConfig])

/-- At the start there are numbers only. -/
theorem number_of_has_new {config : Config} {files : FileStore} {name : String} {k : Meaning}
    (h : (new config files).state.stores.Has name k) : k = .number := by
  cases k with
  | number => rfl
  | _ => exact absurd h (by simp [Has, new, State.stores, State.ofConfig, Table.keys])

/-- Meanings that are not alone are those of variables and labels, whatever lines are carried
out. -/
theorem kept_mixed (name : String) : Kept (fun _ => True) fun a b =>
    a.state.stores.LabelsRooted ∧ a.state.stores.Mixed name →
      b.state.stores.LabelsRooted ∧ b.state.stores.Mixed name :=
  kept_of_changes (Q := fun a b => a.LabelsRooted ∧ a.Mixed name → b.LabelsRooted ∧ b.Mixed name)
    (fun _ h => h) (fun h h' ha => h' (h ha))
    (fun h ha => ⟨ha.1.of_change h, ha.2.of_change ha.1 h⟩)
    (fun _ h ha => ⟨ha.1.of_change h, ha.2.of_change ha.1 h⟩)

/-- A name that is no label whenever a number is assigned to it is never a variable and a label. -/
theorem kept_not_reassigned (name : String) :
    Kept (fun v => v.assigned? = some name → name ∉ v.before.state.labels.keys) fun a b =>
      a.state.stores.LabelsRooted ∧ ¬ a.state.stores.Reassigned name →
        b.state.stores.LabelsRooted ∧ ¬ b.state.stores.Reassigned name := by
  let P (s : Stores) : Prop := s.LabelsRooted ∧ ¬ s.Reassigned name
  have hrefl : ∀ s, P s → P s := fun _ h => h
  have htrans : ∀ {a b c}, (P a → P b) → (P b → P c) → P a → P c := fun h h' ha => h' (h ha)
  have hstep : ∀ {w : Option Keyword}, w ≠ some .set → ∀ {a b}, Change w a b → P a → P b :=
    fun hw _ _ h ha => ⟨ha.1.of_change h, not_reassigned_of_change ha.1 hw ha.2 h⟩
  refine kept_of_visits (Q := fun a b => P a → P b) hrefl htrans (hstep (by simp)) fun v hv => ?_
  by_cases hw : v.word? = some .set
  · obtain ⟨diagnostics, vars, hstores, hkeys⟩ := stores_of_set hw
    rintro ⟨hrooted, hapart⟩
    rw [hstores]
    refine ⟨{ hrooted with }, ?_⟩
    rintro ⟨hvar, hlabel⟩
    rcases hkeys name hvar with hvar | hassigned
    · exact hapart ⟨hvar, hlabel⟩
    · exact hv hassigned hlabel
  · exact of_changes (Q := fun a b => P a → P b) hrefl htrans (hstep hw) (changes_visit v)

/-- **A name has one meaning all along a run**, except for a variable that was a label when a line
assigned a number to it. -/
theorem meanings_along_run (config : Config) (files : FileStore) (sources : List Source) :
    ∀ asm ∈ (new config files).reached sources, ∀ name,
      (asm.state.stores.meanings name).length ≤ 1 ∨
        asm.state.stores.meanings name = [.var, .label] ∧
          ∃ m ∈ (new config files).historyOf sources, m.visit.assigned? = some name ∧
            name ∈ m.visit.before.state.labels.keys := by
  intro asm hasm name
  have hrooted := labelsRooted_new config files
  have hmixed₀ : (new config files).state.stores.Mixed name := fun j k hj hk hne =>
    absurd ((number_of_has_new hj).trans (number_of_has_new hk).symm) hne
  have hmixed := ((kept_mixed name).holds_reached
    (P := fun asm => asm.state.stores.LabelsRooted ∧ asm.state.stores.Mixed name)
    sources ⟨hrooted, hmixed₀⟩ (fun _ _ => trivial) asm hasm).2
  by_cases hassigned : ∃ m ∈ (new config files).historyOf sources,
      m.visit.assigned? = some name ∧ name ∈ m.visit.before.state.labels.keys
  · by_cases hboth : asm.state.stores.Reassigned name
    · exact Or.inr ⟨meanings_eq_of_reassigned hmixed hboth, hassigned⟩
    · exact Or.inl (length_meanings_le hmixed hboth)
  · have hnever : ∀ m ∈ (new config files).historyOf sources, m.visit.assigned? = some name →
        name ∉ m.visit.before.state.labels.keys := fun m hm h hmem => hassigned ⟨m, hm, h, hmem⟩
    have hapart₀ : ¬ (new config files).state.stores.Reassigned name := fun h =>
      absurd (number_of_has_new h.1) (by simp)
    have hapart := ((kept_not_reassigned name).holds_reached
      (P := fun asm => asm.state.stores.LabelsRooted ∧ ¬ asm.state.stores.Reassigned name)
      sources ⟨hrooted, hapart₀⟩ hnever asm hasm).2
    exact Or.inl (length_meanings_le hmixed hapart)

/-- A label that is assigned to. -/
def reassignedSource : Source := .text "a" " SECTION \"a\",ROM0\nfoo:\nfoo = 1\n"

theorem meanings_along_reassignedSource :
    (new {} (.memory {})).runAll [reassignedSource] ∈
        (new {} (.memory {})).reached [reassignedSource] ∧
      ∃ m ∈ (new {} (.memory {})).historyOf [reassignedSource],
        m.visit.assigned? = some "foo" ∧ "foo" ∈ m.visit.before.state.labels.keys := by
  have hlast : (new {} (.memory {})).runAll [reassignedSource] ∈
      (new {} (.memory {})).reached [reassignedSource] := by
    simp [reached]
  have htwo : (((new {} (.memory {})).runAll [reassignedSource]).state.stores.meanings
      "foo").length = 2 := by
    decide +kernel
  rcases meanings_along_run {} (.memory {}) [reassignedSource] _ hlast "foo" with h | h
  · exact absurd h (by omega)
  · exact ⟨hlast, h.2⟩

theorem reassigned_label_has_two_meanings :
    ∃ asm ∈ (new {} (.memory {})).reached [reassignedSource],
      asm.state.stores.meanings "foo" = [.var, .label] ∧ asm.state.diagnostics.size = 0 := by
  refine ⟨(new {} (.memory {})).runAll [reassignedSource], by simp [reached], ?_⟩
  decide +kernel

end Assembler

end Sm83Asm
