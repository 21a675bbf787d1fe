import PropellerAsm.Text.Layout

/-!
# Expanded tabs

Tabs become spaces and nothing else changes: every other character stays, and so does the first one
behind the blanks at the start of a line.
-/
namespace PropellerAsm.Text

/-- A tab stands for at least one space. -/
theorem pad_pos (column : Nat) : 0 < tabWidth - column % tabWidth :=
  Nat.sub_pos_of_lt (Nat.mod_lt column (by decide))

theorem expandFrom_of_not_mem {cs : List Char} (h : '\t' ∉ cs) (column : Nat) :
    expandFrom column cs = cs := by
  fun_induction expandFrom column cs with
  | case1 => rfl
  | case2 column rest pad ih => exact absurd List.mem_cons_self h
  | case3 column c rest _ ih => rw [ih fun hmem => h (List.mem_cons_of_mem _ hmem)]

/-- No other character comes or goes. -/
theorem mem_expandFrom_iff {c : Char} (hspace : c ≠ ' ') (htab : c ≠ '\t') (column : Nat)
    (cs : List Char) : c ∈ expandFrom column cs ↔ c ∈ cs := by
  fun_induction expandFrom column cs with
  | case1 => rfl
  | case2 column rest pad ih => simp [ih, hspace, htab]
  | case3 column d rest _ ih => simp [ih]

/-- A text in two parts is expanded part by part. -/
theorem expandFrom_append (column : Nat) (cs ds : List Char) :
    expandFrom column (cs ++ ds) =
      expandFrom column cs ++ expandFrom (column + (expandFrom column cs).length) ds := by
  fun_induction expandFrom column cs with
  | case1 => rfl
  | case2 column rest pad ih =>
    rw [List.cons_append, expandFrom, ih, List.append_assoc, List.length_append,
      List.length_replicate, Nat.add_assoc]
  | case3 column c rest hc ih =>
    rw [List.cons_append, expandFrom, ih, List.cons_append, List.length_cons]
    · rw [Nat.add_assoc, Nat.add_comm 1]
    · exact hc

theorem expandFrom_spaces (column n : Nat) (cs : List Char) :
    expandFrom column (List.replicate n ' ' ++ cs) =
      List.replicate n ' ' ++ expandFrom (column + n) cs := by
  induction n generalizing column with
  | zero => rfl
  | succ n ih =>
    rw [List.replicate_succ, List.cons_append, expandFrom, ih, List.cons_append, Nat.add_assoc,
      Nat.add_comm 1]
    decide

theorem trimLeft_cons_of_blank {c : Char} (h : isBlank c = true) (cs : List Char) :
    trimLeft (c :: cs) = trimLeft cs :=
  List.dropWhile_cons_of_pos h

theorem trimLeft_cons_of_not_blank {c : Char} (h : isBlank c = false) (cs : List Char) :
    trimLeft (c :: cs) = c :: cs :=
  List.dropWhile_cons_of_neg (Bool.eq_false_iff.mp h)

theorem trimLeft_spaces (n : Nat) (cs : List Char) :
    trimLeft (List.replicate n ' ' ++ cs) = trimLeft cs := by
  induction n with
  | zero => rfl
  | succ n ih =>
    rw [List.replicate_succ, List.cons_append, trimLeft_cons_of_blank (by decide), ih]

/-- More spaces do not change which character comes first. -/
theorem head?_trimLeft_lengthened (cs ds : List Char) (n : Nat) :
    (trimLeft (cs ++ List.replicate (n + 1) ' ' ++ ds)).head? =
      (trimLeft (cs ++ ' ' :: ds)).head? := by
  induction cs with
  | nil =>
    rw [List.nil_append, List.nil_append, trimLeft_spaces, trimLeft_cons_of_blank (by decide)]
  | cons c cs ih =>
    simp only [List.cons_append]
    cases h : isBlank c with
    | true => rw [trimLeft_cons_of_blank h, trimLeft_cons_of_blank h, ih]
    | false => rw [trimLeft_cons_of_not_blank h, trimLeft_cons_of_not_blank h]; rfl

/-- The first character that is not blank stays the first. -/
theorem head?_trimLeft_expandFrom (column : Nat) (cs : List Char) :
    (trimLeft (expandFrom column cs)).head? = (trimLeft cs).head? := by
  fun_induction expandFrom column cs with
  | case1 => rfl
  | case2 column rest pad ih =>
    rw [trimLeft_spaces, ih, trimLeft_cons_of_blank (by decide)]
  | case3 column c rest _ ih =>
    cases h : isBlank c with
    | true => rw [trimLeft_cons_of_blank h, trimLeft_cons_of_blank h, ih]
    | false => rw [trimLeft_cons_of_not_blank h, trimLeft_cons_of_not_blank h]; rfl

end PropellerAsm.Text
