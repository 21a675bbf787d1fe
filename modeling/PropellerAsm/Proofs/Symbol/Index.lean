import Mathlib.Data.List.Basic
import PropellerAsm.Proofs.Symbol.Table

/-!
# The two indexes of the table

A symbol is filed with the lines that mention it, and a line with the names that it mentions.  Each
operation keeps the two by itself.  Both are compared here with the mentions as such, one after the
other since the table was cleared, so they tell the same whatever the operations have been.
-/
namespace PropellerAsm.SymbolTable

/-! ## Operations -/

/-- An operation on the table. -/
inductive Edit where
  | insert (name : String) (value : Value)
  | setValue (name : String) (value : Value)
  | define (name : String) (value : Value) (line : Nat)
  | addReference (line : Nat) (name : String)
  | clear

namespace Edit

/-- The table after an operation, if it is not refused. -/
def result? (t : SymbolTable) : Edit → Option SymbolTable
  | insert name value => t.insert? name value
  | setValue name value => t.setValue? name value
  | define name value line => t.define? name value line
  | addReference line name => some (t.addReference line name)
  | clear => some empty

/-- The table after an operation; one that is refused leaves it as it is. -/
def apply (t : SymbolTable) (e : Edit) : SymbolTable := (e.result? t).getD t

/-- The mentions after an operation on `t`: a definition that is not refused and a use add the name
to those of the line. -/
def record (t : SymbolTable) (mentions : List (Nat × String)) : Edit → List (Nat × String)
  | insert _ _ => mentions
  | setValue _ _ => mentions
  | define name value line =>
    if (t.define? name value line).isSome then mentions ++ [(line, name)] else mentions
  | addReference line name => mentions ++ [(line, name)]
  | clear => []

/-- The operation may give the symbol of that name another value though it has one. -/
def Overwrites (name : String) : Edit → Prop
  | setValue other _ => other = name
  | clear => True
  | _ => False

end Edit

/-- The table after operations on an empty one, and the mentions since it was cleared. -/
def edited (edits : List Edit) : SymbolTable × List (Nat × String) :=
  edits.foldl (fun state e => (e.apply state.1, e.record state.1 state.2)) (empty, [])

/-- The names that a line mentions, with all repetitions. -/
def namesOn (line : Nat) (mentions : List (Nat × String)) : List String :=
  (mentions.filter (·.1 == line)).map (·.2)

example : (edited [.addReference 2 "x", .define "y" (.addr 0) 2, .define "x" .undefined 7,
    .define "y" (.addr 4) 8, .addReference 2 "x"]).2 =
      [(2, "x"), (2, "y"), (7, "x"), (2, "x")] := by decide +kernel

theorem mem_namesOn {line : Nat} {mentions : List (Nat × String)} {name : String} :
    name ∈ namesOn line mentions ↔ (line, name) ∈ mentions := by
  simp [namesOn]

theorem namesOn_concat_self (line : Nat) (mentions : List (Nat × String)) (name : String) :
    namesOn line (mentions ++ [(line, name)]) = namesOn line mentions ++ [name] := by
  simp [namesOn]

theorem namesOn_concat_of_ne {line other : Nat} (h : other ≠ line)
    (mentions : List (Nat × String)) (name : String) :
    namesOn other (mentions ++ [(line, name)]) = namesOn other mentions := by
  simp [namesOn, h.symm]

/-! ## The invariant -/

/-- Both indexes tell the mentions. -/
structure Indexed (t : SymbolTable) (mentions : List (Nat × String)) : Prop where
  /-- A symbol is filed under its own name. -/
  named : ∀ name s, t.get? name = some s → s.name = name
  lines : ∀ name line, line ∈ (t.symbolOf name).references ↔ (line, name) ∈ mentions
  /-- The names of a line stand in the order of their first mentions. -/
  names : ∀ line, t.byLine.getD line [] = (namesOn line mentions).eraseDups
  distinct : ∀ line, (t.byLine.getD line []).Nodup

theorem indexed_empty : Indexed empty [] where
  named := by
    intro name s h
    simp [get?, empty] at h
  lines := by
    intro name line
    simp [symbolOf, get?, empty]
  names _ := rfl
  distinct _ := List.nodup_nil

namespace Indexed

variable {t : SymbolTable} {mentions : List (Nat × String)}

/-- The symbol that an operation on a name finds has that name. -/
theorem name_symbolOf (h : Indexed t mentions) (name : String) : (t.symbolOf name).name = name := by
  rw [symbolOf]
  cases hget : t.get? name with
  | none => rfl
  | some s => exact h.named name s hget

theorem named_put (h : Indexed t mentions) {name : String} {s : Symbol} (hname : s.name = name)
    {other : String} {s' : Symbol} (hget : (t.put name s).get? other = some s') :
    s'.name = other := by
  rw [get?_put] at hget
  split at hget
  · rename_i heq
    obtain rfl := Option.some.inj hget
    exact hname.trans heq
  · exact h.named other s' hget

/-- Another symbol with the same mentions changes nothing. -/
theorem put (h : Indexed t mentions) {name : String} {s : Symbol} (hname : s.name = name)
    (hlines : s.references = (t.symbolOf name).references) : Indexed (t.put name s) mentions where
  named _ _ hget := h.named_put hname hget
  lines := by
    intro other line
    rw [← h.lines other line, symbolOf, get?_put]
    split
    · rename_i heq
      rw [Option.getD_some, hlines, heq]
    · rfl
  names := h.names
  distinct := h.distinct

/-- A symbol with one more mention, which is filed for the line as well. -/
theorem mention (h : Indexed t mentions) {name : String} {line : Nat} {s : Symbol}
    (hname : s.name = name)
    (hlines : ∀ other, other ∈ s.references ↔ other ∈ (t.symbolOf name).references ∨ other = line) :
    Indexed ((t.put name s).index line name) (mentions ++ [(line, name)]) where
  named := by
    intro other s' hget
    rw [get?_index] at hget
    exact h.named_put hname hget
  lines := by
    intro other place
    rw [symbolOf, get?_index, get?_put, List.mem_append, List.mem_singleton, Prod.mk.injEq]
    by_cases heq : name = other
    · subst heq
      rw [if_pos rfl, Option.getD_some, hlines, h.lines name place, and_iff_left rfl]
    · have hother : ¬ (place = line ∧ other = name) := fun hboth => heq hboth.2.symm
      rw [if_neg heq, or_iff_left hother, ← h.lines other place, symbolOf]
  names := by
    intro other
    by_cases heq : other = line
    · subst heq
      have hfiled : name ∈ t.byLine.getD other [] ↔ name ∈ namesOn other mentions := by
        rw [h.names other, List.mem_eraseDups]
      rw [namesOn_concat_self, List.eraseDups_append, ← h.names other]
      unfold index
      dsimp only [SymbolTable.put]
      -- A name that the line has mentioned before is not filed again.
      by_cases hbefore : name ∈ namesOn other mentions
      · rw [if_pos (List.contains_iff_mem.mpr (hfiled.mpr hbefore))]
        simp [List.removeAll, hbefore]
      · rw [if_neg (mt List.contains_iff_mem.mp (mt hfiled.mp hbefore)),
          Std.TreeMap.getD_insert_self]
        simp [List.removeAll, hbefore, List.eraseDups_cons]
    · rw [byLine_index _ heq, namesOn_concat_of_ne heq]
      exact h.names other
  distinct := by
    intro other
    by_cases heq : other = line
    · subst heq
      unfold index
      dsimp only [SymbolTable.put]
      split
      · exact h.distinct other
      · rename_i hnew
        rw [Std.TreeMap.getD_insert_self]
        refine List.nodup_append.mpr ⟨h.distinct other, List.pairwise_singleton _ _, ?_⟩
        rintro first hfirst last hlast rfl
        obtain rfl := List.mem_singleton.mp hlast
        exact hnew (List.contains_iff_mem.mpr hfirst)
    · rw [byLine_index _ heq]
      exact h.distinct other

/-- Every operation keeps both indexes with the mentions. -/
theorem edit (h : Indexed t mentions) (e : Edit) :
    Indexed (e.apply t) (e.record t mentions) := by
  cases e with
  | insert name value =>
    unfold Edit.apply Edit.result? insert?
    dsimp only
    split
    · exact h
    · rename_i hfree
      -- No symbol of that name, and so no mention.
      have hget : t.get? name = none := by
        simpa [contains, get?] using hfree
      refine h.put rfl ?_
      rw [symbolOf, hget]
      rfl
  | setValue name value =>
    unfold Edit.apply Edit.result? setValue?
    dsimp only
    cases hget : t.get? name with
    | none => exact h
    | some s =>
      refine h.put (h.named name s hget) ?_
      rw [symbolOf, hget]
      rfl
  | define name value line =>
    unfold Edit.apply Edit.result? Edit.record
    dsimp only
    cases hdefine : t.define? name value line with
    | none => exact h
    | some t' =>
      unfold define? at hdefine
      dsimp only at hdefine
      split at hdefine
      · cases hdefine
      · obtain rfl := Option.some.inj hdefine
        refine h.mention (h.name_symbolOf name) fun other => ?_
        rw [List.mem_cons, or_comm]
        rfl
  | addReference line name =>
    refine h.mention (h.name_symbolOf name) fun other => ?_
    rw [List.mem_append, List.mem_singleton]
    rfl
  | clear => exact indexed_empty

end Indexed

theorem indexed_edited (edits : List Edit) : Indexed (edited edits).1 (edited edits).2 := by
  have hrun : ∀ (edits : List Edit) (state : SymbolTable × List (Nat × String)),
      Indexed state.1 state.2 →
      let state' := edits.foldl (fun state e => (e.apply state.1, e.record state.1 state.2)) state
      Indexed state'.1 state'.2 := by
    intro edits
    induction edits with
    | nil => exact fun _ h => h
    | cons e edits ih => exact fun state h => ih _ (h.edit e)
  exact hrun edits (empty, []) indexed_empty

/-- The symbols of a line are those of its names. -/
theorem Indexed.map_name_referencesIn {t : SymbolTable} {mentions : List (Nat × String)}
    (h : Indexed t mentions) (line : Nat) :
    (t.referencesIn line).map (·.name) = t.byLine.getD line [] := by
  have hheld : ∀ name ∈ t.byLine.getD line [], (t.get? name).map (·.name) = some name := by
    intro name hname
    rw [h.names, List.mem_eraseDups, mem_namesOn, ← h.lines name line, symbolOf] at hname
    cases hget : t.get? name with
    | none =>
      rw [hget] at hname
      cases hname
    | some s => rw [Option.map_some, h.named name s hget]
  rw [referencesIn, List.map_filterMap, List.filterMap_congr hheld, List.filterMap_some]

/-! ## Values that last -/

/-- A symbol with a value keeps it, unless it is set or the table is cleared. -/
theorem value_apply {t : SymbolTable} {name : String} (hdefined : (t.lookup name).isDefined = true)
    {e : Edit} (he : ¬ e.Overwrites name) :
    ((e.apply t).lookup name).value = (t.lookup name).value := by
  have hput : ∀ {other : String} {s : Symbol}, other ≠ name →
      (t.put other s).lookup name = t.lookup name := by
    intro other s hother
    rw [lookup, get?_put, if_neg hother, lookup]
  cases e with
  | insert other value =>
    unfold Edit.apply Edit.result? insert?
    dsimp only
    split
    · rfl
    · rename_i hfree
      -- The name that is new is another one.
      refine congrArg Symbol.value (hput ?_)
      rintro rfl
      have hget : t.get? other = none := by simpa [contains, get?] using hfree
      rw [lookup, hget] at hdefined
      cases hdefined
  | setValue other value =>
    unfold Edit.apply Edit.result? setValue?
    dsimp only
    cases t.get? other with
    | none => rfl
    | some s => exact congrArg Symbol.value (hput he)
  | define other value line =>
    unfold Edit.apply Edit.result?
    dsimp only
    cases hdefine : t.define? other value line with
    | none => rfl
    | some t' =>
      obtain ⟨hfree, hget⟩ := get?_define? hdefine
      have hother : other ≠ name := by
        rintro rfl
        rw [Symbol.isDefined, symbolOf_value] at hfree
        rw [Symbol.isDefined, hfree] at hdefined
        cases hdefined
      rw [Option.getD_some, lookup, hget, if_neg hother, lookup]
  | addReference line other => exact t.lookup_addReference_value line other name
  | clear => exact absurd trivial he

theorem value_foldl_apply {t : SymbolTable} {name : String}
    (hdefined : (t.lookup name).isDefined = true) {later : List Edit}
    (hlater : ∀ e ∈ later, ¬ e.Overwrites name) :
    ((later.foldl Edit.apply t).lookup name).value = (t.lookup name).value := by
  induction later generalizing t with
  | nil => rfl
  | cons e later ih =>
    have hfirst := value_apply hdefined (hlater e List.mem_cons_self)
    have hstill : ((e.apply t).lookup name).isDefined = true := by
      rw [Symbol.isDefined, hfirst]
      exact hdefined
    rw [List.foldl_cons, ih hstill fun e' he' => hlater e' (List.mem_cons_of_mem _ he'), hfirst]

/-! ## Refused operations -/

theorem insert?_eq_none_iff {t : SymbolTable} {name : String} {value : Value} :
    t.insert? name value = none ↔ t.contains name = true := by
  unfold insert?
  split
  · rename_i h
    simp [h]
  · rename_i h
    simp [h]

theorem setValue?_eq_none_iff {t : SymbolTable} {name : String} {value : Value} :
    t.setValue? name value = none ↔ t.contains name = false := by
  rw [setValue?, Option.map_eq_none_iff, get?, contains,
    Std.TreeMap.contains_eq_isSome_getElem?, Option.isSome_eq_false_iff, Option.isNone_iff_eq_none]

theorem define?_eq_none_iff {t : SymbolTable} {name : String} {value : Value} {line : Nat} :
    t.define? name value line = none ↔ (t.lookup name).isDefined = true := by
  have hfound : ((t.get? name).getD { name }).isDefined = (t.lookup name).isDefined :=
    congrArg Value.isDefined (t.symbolOf_value name)
  unfold define?
  dsimp only
  rw [hfound]
  split
  · rename_i h
    simp [h]
  · rename_i h
    simp [h]

/-! ## All operations -/

/-- After every sequence of operations: a line tells a name if and only if the symbol of that name
tells the line; the names of a line are distinct and stand in the order of their first mentions
since the table was cleared; symbols are filed under their own names, and these are in order; an
operation that is refused, and only for its reason, leaves the table as it is; and a name that has
been bound to a value keeps it as long as it is not set and the table is not cleared. -/
theorem indexes_tell_the_same (edits : List Edit) :
    let t := (edited edits).1
    let mentions := (edited edits).2
    (∀ line name, name ∈ (t.referencesIn line).map (·.name) ↔
      line ∈ (t.lookup name).references) ∧
    (∀ line, ((t.referencesIn line).map (·.name)).Nodup ∧
      (t.referencesIn line).map (·.name) = (namesOn line mentions).eraseDups) ∧
    (∀ name s, t.get? name = some s → s.name = name) ∧ t.names.Pairwise (· < ·) ∧
    (∀ name value, (t.insert? name value = none ↔ t.contains name = true) ∧
      (t.setValue? name value = none ↔ t.contains name = false) ∧
      ∀ line, t.define? name value line = none ↔ (t.lookup name).isDefined = true) ∧
    (∀ e : Edit, e.result? t = none → e.apply t = t) ∧
    ∀ name value line t', t.define? name value line = some t' → value.isDefined = true →
      ∀ later : List Edit, (∀ e ∈ later, ¬ e.Overwrites name) →
        ((later.foldl Edit.apply t').lookup name).value = value := by
  intro t mentions
  have h : Indexed t mentions := indexed_edited edits
  refine ⟨?_, ?_, h.named, ?_, ?_, ?_, ?_⟩
  · intro line name
    have hlookup : (t.symbolOf name).references = (t.lookup name).references := by
      rw [symbolOf, lookup]
      cases t.get? name with
      | none => rfl
      | some s => rfl
    rw [h.map_name_referencesIn, h.names, List.mem_eraseDups, mem_namesOn, ← hlookup,
      h.lines name line]
  · intro line
    rw [h.map_name_referencesIn]
    exact ⟨h.distinct line, h.names line⟩
  · have hkeys : t.names.Pairwise fun first second => compare first second = .lt :=
      Std.TreeMap.ordered_keys
    exact hkeys.imp compareOfLessAndEq_eq_lt.mp
  · exact fun _ _ => ⟨insert?_eq_none_iff, setValue?_eq_none_iff, fun _ => define?_eq_none_iff⟩
  · intro e hrefused
    rw [Edit.apply, hrefused, Option.getD_none]
  · intro name value line t' hdefine hvalue later hlater
    -- Bound here, and by no later operation anew.
    have hbound : (t'.lookup name).value = value := by
      rw [lookup, (get?_define? hdefine).2, if_pos rfl]
      rfl
    have hdefined : (t'.lookup name).isDefined = true := by
      rw [Symbol.isDefined, hbound]
      exact hvalue
    rw [value_foldl_apply hdefined hlater, hbound]

end PropellerAsm.SymbolTable
