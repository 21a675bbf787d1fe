import Mathlib.Order.Defs.Unbundled
import PropellerAsm.Symbol.Table

/-!
# Symbols after uses and definitions

What each operation on the symbol table does to the symbol of every name, and the uses of names
recorded one after the other.  A use leaves every value as it was: it adds the line to the symbol,
or an undefined symbol to the table.
-/
namespace PropellerAsm

/-- The symbol after some more uses on a line. -/
def Symbol.used (s : Symbol) (line count : Nat) : Symbol :=
  { s with references := s.references ++ List.replicate count line }

/-- The symbol after its definition on a line. -/
def Symbol.bound (s : Symbol) (value : Value) (line : Nat) : Symbol :=
  { s with value, references := line :: s.references }

/-- Uses come behind the definition. -/
theorem Symbol.definition?_used {s : Symbol} (h : s.references ≠ []) (line count : Nat) :
    (s.used line count).definition? = s.definition? := by
  obtain ⟨first, more, hreferences⟩ := List.exists_cons_of_ne_nil h
  show (if s.isDefined then (s.references ++ List.replicate count line).head? else none) =
    if s.isDefined then s.references.head? else none
  rw [hreferences]
  rfl

namespace SymbolTable

variable (t : SymbolTable)

/-! ## One operation -/

@[simp] theorem get?_put (name other : String) (s : Symbol) :
    (t.put name s).get? other = if name = other then some s else t.get? other := by
  rw [get?, put, Std.TreeMap.getElem?_insert]
  simp [get?]

@[simp] theorem get?_index (line : Nat) (name other : String) :
    (t.index line name).get? other = t.get? other := by
  unfold index
  dsimp only
  split
  · rfl
  · rfl

/-- The symbol that a use or a definition of a name finds. -/
def symbolOf (name : String) : Symbol := (t.get? name).getD { name }

theorem get?_addReference (line : Nat) (name other : String) :
    (t.addReference line name).get? other =
      if name = other then some ((t.symbolOf name).used line 1) else t.get? other := by
  rw [addReference, get?_index, get?_put]
  rfl

/-- A definition finds no value, gives one, and puts its line first. -/
theorem get?_define? {t t' : SymbolTable} {name : String} {value : Value} {line : Nat}
    (h : t.define? name value line = some t') :
    (t.symbolOf name).isDefined = false ∧
      ∀ other, t'.get? other =
        if name = other then some ((t.symbolOf name).bound value line) else t.get? other := by
  unfold define? at h
  dsimp only at h
  split at h
  · cases h
  · rename_i hfree
    obtain rfl := Option.some.inj h
    refine ⟨Bool.eq_false_iff.mpr hfree, ?_⟩
    intro other
    rw [get?_index, get?_put]
    rfl

theorem symbolOf_value (name : String) : (t.symbolOf name).value = (t.lookup name).value := by
  rw [symbolOf, lookup]
  cases t.get? name with
  | none => rfl
  | some s => rfl

theorem lookup_addReference_value (line : Nat) (name other : String) :
    ((t.addReference line name).lookup other).value = (t.lookup other).value := by
  rw [lookup, get?_addReference]
  by_cases h : name = other
  · subst h
    rw [if_pos rfl]
    exact t.symbolOf_value name
  · rw [if_neg h, lookup]

/-! ## Uses one after the other -/

/-- The table after uses on a line. -/
def addReferences (line : Nat) (names : List String) : SymbolTable :=
  names.foldl (fun t name => t.addReference line name) t

theorem addReferences_append (line : Nat) (names more : List String) :
    t.addReferences line (names ++ more) = (t.addReferences line names).addReferences line more :=
  List.foldl_append

theorem lookup_addReferences_value (line : Nat) (names : List String) (other : String) :
    ((t.addReferences line names).lookup other).value = (t.lookup other).value := by
  induction names generalizing t with
  | nil => rfl
  | cons name names ih =>
    have hfirst := t.lookup_addReference_value line name other
    exact (ih (t.addReference line name)).trans hfirst

/-- The symbol of a name after uses: the line once for every use of the name. -/
theorem get?_addReferences (line : Nat) (names : List String) (name : String) :
    (t.addReferences line names).get? name =
      if names.count name = 0 then t.get? name
      else some ((t.symbolOf name).used line (names.count name)) := by
  induction names generalizing t with
  | nil => rfl
  | cons first names ih =>
    have hrest := ih (t.addReference line first)
    have hcons : t.addReferences line (first :: names) =
        (t.addReference line first).addReferences line names := rfl
    rw [hcons, hrest, List.count_cons]
    simp only [symbolOf, get?_addReference, beq_iff_eq]
    by_cases hfirst : first = name
    · subst hfirst
      -- The first use, and the uses behind it.
      by_cases hcount : names.count first = 0
      · simp [hcount, Symbol.used]
      · simp [hcount, Symbol.used, List.replicate_succ]
    · simp only [if_neg hfirst, Nat.add_zero]

/-- Some uses have been recorded on a line, and nothing else. -/
def Recorded (line : Nat) (t t' : SymbolTable) : Prop :=
  ∃ names, t' = t.addReferences line names

instance (line : Nat) : IsPreorder SymbolTable (Recorded line) where
  refl _ := ⟨[], rfl⟩
  trans := by
    rintro t _ _ ⟨names, rfl⟩ ⟨more, rfl⟩
    exact ⟨names ++ more, (t.addReferences_append line names more).symm⟩

/-! ## The names of other lines -/

theorem byLine_index {line other : Nat} (h : other ≠ line) (name : String) :
    (t.index line name).byLine.getD other [] = t.byLine.getD other [] := by
  unfold index
  dsimp only
  split
  · rfl
  · rw [Std.TreeMap.getD_insert]
    simp [h.symm]

theorem byLine_addReferences {line other : Nat} (h : other ≠ line) (names : List String) :
    (t.addReferences line names).byLine.getD other [] = t.byLine.getD other [] := by
  induction names generalizing t with
  | nil => rfl
  | cons name names ih =>
    have hrest := ih (t.addReference line name)
    exact hrest.trans (byLine_index _ h name)

theorem byLine_define? {t t' : SymbolTable} {name : String} {value : Value} {line other : Nat}
    (hdefine : t.define? name value line = some t') (h : other ≠ line) :
    t'.byLine.getD other [] = t.byLine.getD other [] := by
  unfold define? at hdefine
  dsimp only at hdefine
  split at hdefine
  · cases hdefine
  · obtain rfl := Option.some.inj hdefine
    exact byLine_index _ h name

/-! ## A definition and uses on one line -/

/-- The table after the mentions of one line, name by name: `label` is bound to `value`, if there is
a label, and `uses` are recorded. -/
structure Extended (line : Nat) (value : Value) (label : Option String) (uses : List String)
    (t t' : SymbolTable) : Prop where
  free : ∀ name, label = some name → (t.symbolOf name).isDefined = false
  symbols : ∀ name, t'.get? name =
    if label = some name then
      some (((t.symbolOf name).bound value line).used line (uses.count name))
    else if uses.count name = 0 then t.get? name
    else some ((t.symbolOf name).used line (uses.count name))
  /-- The names of other lines are the same. -/
  others : ∀ other, other ≠ line → t'.byLine.getD other [] = t.byLine.getD other []

theorem extended_addReferences (line : Nat) (value : Value) (uses : List String) :
    Extended line value none uses t (t.addReferences line uses) where
  free := by
    intro name h
    cases h
  symbols := by
    intro name
    have hnone : ¬ (none : Option String) = some name := by simp
    rw [t.get?_addReferences, if_neg hnone]
  others := fun _ h => t.byLine_addReferences h uses

theorem extended_define? {t t₁ : SymbolTable} {line : Nat} {value : Value} {label : String}
    (h : t.define? label value line = some t₁) (uses : List String) :
    Extended line value (some label) uses t (t₁.addReferences line uses) where
  free := by
    intro name hname
    obtain rfl := Option.some.inj hname
    exact (get?_define? h).1
  symbols := by
    intro name
    rw [t₁.get?_addReferences, symbolOf, (get?_define? h).2]
    by_cases hname : label = name
    · subst hname
      simp only [if_pos, Option.getD_some]
      -- Without uses the definition is all there is.
      by_cases hcount : uses.count label = 0
      · simp [hcount, Symbol.used]
      · simp [hcount]
    · have hother : ¬ some label = some name := by simpa using hname
      rw [if_neg hname, if_neg hother]
      rfl
  others := by
    intro other hother
    rw [t₁.byLine_addReferences hother, byLine_define? h hother]

/-- A symbol with a value keeps it, and keeps the line of its definition. -/
theorem Extended.defined {line : Nat} {value : Value} {label : Option String}
    {uses : List String} {t t' : SymbolTable} (h : Extended line value label uses t t')
    {name : String} {s : Symbol} (hget : t.get? name = some s) (hdefined : s.isDefined = true)
    (hmentioned : s.references ≠ []) :
    ∃ s', t'.get? name = some s' ∧ s'.value = s.value ∧ s'.definition? = s.definition? := by
  have hsymbol : t.symbolOf name = s := by
    rw [symbolOf, hget]
    rfl
  -- The label is another one, for it had no value.
  have hlabel : label ≠ some name := by
    intro hname
    have hfree := h.free name hname
    rw [hsymbol, hdefined] at hfree
    cases hfree
  have hname := h.symbols name
  rw [if_neg hlabel, hsymbol] at hname
  by_cases hcount : uses.count name = 0
  · rw [if_pos hcount, hget] at hname
    exact ⟨s, hname, rfl, rfl⟩
  · rw [if_neg hcount] at hname
    exact ⟨_, hname, rfl, Symbol.definition?_used hmentioned line _⟩

end SymbolTable

end PropellerAsm
