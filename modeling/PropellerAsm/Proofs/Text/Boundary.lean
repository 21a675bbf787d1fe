import PropellerAsm.Proofs.Text.Case

/-!
# Character boundaries

A text is cut at byte positions, and a position inside a character is none to cut at.  An ASCII byte
is a character on its own wherever it stands, so a reader that has just taken one is between two
characters again, whatever bytes it took before.  What is cut out at boundaries is the text that its
bytes are decoded to.
-/
namespace PropellerAsm.Utf8

/-! ## Decoding what has been encoded -/

/-- A byte in the range that is waited for adds six bits. -/
theorem scan_further {p : Pending} {m : Nat} (hm : m < 0x40) (hlow : p.low.toNat ≤ m + 0x80)
    (hhigh : m + 0x80 ≤ p.high.toNat) (bytes : List UInt8) :
    scan (some p) (UInt8.ofNat (m + 0x80) :: bytes) =
      match p.further with
      | 0 => some (Char.ofNat (p.bits * 0x40 + m)) :: scan none bytes
      | further + 1 => scan (some ⟨0x80, 0xbf, further, p.bits * 0x40 + m⟩) bytes := by
  have hbyte : (UInt8.ofNat (m + 0x80)).toNat = m + 0x80 := by
    rw [UInt8.toNat_ofNat', Nat.mod_eq_of_lt (by omega)]
  have hrange : p.low ≤ UInt8.ofNat (m + 0x80) ∧ UInt8.ofNat (m + 0x80) ≤ p.high := by
    rw [UInt8.le_iff_toNat_le, UInt8.le_iff_toNat_le, hbyte]
    exact ⟨hlow, hhigh⟩
  rw [scan_cons, step]
  dsimp only
  rw [if_pos hrange, hbyte, Nat.add_sub_cancel]
  cases p.further with
  | zero => rfl
  | succ further => rfl

/-- From the third byte of a character on every byte that goes on with it is waited for. -/
theorem scan_later (further bits n : Nat) (bytes : List UInt8) :
    scan (some ⟨0x80, 0xbf, further, bits⟩) (UInt8.ofNat (n % 0x40 + 0x80) :: bytes) =
      match further with
      | 0 => some (Char.ofNat (bits * 0x40 + n % 0x40)) :: scan none bytes
      | further + 1 => scan (some ⟨0x80, 0xbf, further, bits * 0x40 + n % 0x40⟩) bytes := by
  have hm : n % 0x40 < 0x40 := Nat.mod_lt _ (by decide)
  have hhigh : n % 0x40 + 0x80 ≤ (0xbf : UInt8).toNat := Nat.add_le_add_right (by omega) 0x80
  exact scan_further hm (Nat.le_add_left 0x80 _) hhigh bytes

theorem scan_lead_two : ∀ k < 0x20, 2 ≤ k → ∀ bytes,
    scan none (UInt8.ofNat (k + 0xc0) :: bytes) = scan (some ⟨0x80, 0xbf, 0, k⟩) bytes := by
  have hlead : ∀ k < 0x20, 2 ≤ k →
      lead (UInt8.ofNat (k + 0xc0)) = ([], some ⟨0x80, 0xbf, 0, k⟩) := by decide
  intro k hk hlong bytes
  rw [scan_cons, step, hlead k hk hlong, List.nil_append]

theorem scan_lead_three : ∀ k < 0x10, ∀ bytes, scan none (UInt8.ofNat (k + 0xe0) :: bytes) =
    scan (some ⟨if k = 0 then 0xa0 else 0x80, if k = 0xd then 0x9f else 0xbf, 1, k⟩) bytes := by
  have hlead : ∀ k < 0x10, lead (UInt8.ofNat (k + 0xe0)) =
      ([], some ⟨if k = 0 then 0xa0 else 0x80, if k = 0xd then 0x9f else 0xbf, 1, k⟩) := by decide
  intro k hk bytes
  rw [scan_cons, step, hlead k hk, List.nil_append]

theorem scan_lead_four : ∀ k < 5, ∀ bytes, scan none (UInt8.ofNat (k + 0xf0) :: bytes) =
    scan (some ⟨if k = 0 then 0x90 else 0x80, if k = 4 then 0x8f else 0xbf, 2, k⟩) bytes := by
  have hlead : ∀ k < 5, lead (UInt8.ofNat (k + 0xf0)) =
      ([], some ⟨if k = 0 then 0x90 else 0x80, if k = 4 then 0x8f else 0xbf, 2, k⟩) := by decide
  intro k hk bytes
  rw [scan_cons, step, hlead k hk, List.nil_append]

theorem scan_two {n : Nat} (hlow : 0x80 ≤ n) (hhigh : n < 0x800) (bytes : List UInt8) :
    scan none (UInt8.ofNat (n / 64 % 32 + 0xc0) :: UInt8.ofNat (n % 64 + 0x80) :: bytes) =
      some (Char.ofNat n) :: scan none bytes := by
  have hbits : n / 64 % 32 * 0x40 + n % 0x40 = n := by omega
  rw [scan_lead_two _ (by omega) (by omega), scan_later]
  dsimp only
  rw [hbits]

/-- Neither a character that fits two bytes nor a surrogate is spelled with three. -/
theorem scan_three {n : Nat} (hlow : 0x800 ≤ n) (hhigh : n < 0x10000)
    (hvalid : n < 0xd800 ∨ 0xdfff < n) (bytes : List UInt8) :
    scan none (UInt8.ofNat (n / 4096 % 16 + 0xe0) :: UInt8.ofNat (n / 64 % 64 + 0x80) ::
        UInt8.ofNat (n % 64 + 0x80) :: bytes) = some (Char.ofNat n) :: scan none bytes := by
  have hbits : (n / 4096 % 16 * 0x40 + n / 64 % 64) * 0x40 + n % 0x40 = n := by omega
  have hmin : (if n / 4096 % 16 = 0 then 0xa0 else 0x80 : UInt8).toNat ≤ n / 64 % 64 + 0x80 := by
    split
    · show 0xa0 ≤ _
      omega
    · exact Nat.le_add_left 0x80 _
  have hmax : n / 64 % 64 + 0x80 ≤
      (if n / 4096 % 16 = 0xd then 0x9f else 0xbf : UInt8).toNat := by
    split
    · show _ ≤ 0x9f
      omega
    · show _ ≤ 0xbf
      omega
  rw [scan_lead_three _ (by omega), scan_further (by omega) hmin hmax]
  dsimp only
  rw [scan_later]
  dsimp only
  rw [hbits]

/-- Neither a character that fits three bytes nor one behind the last is spelled with four. -/
theorem scan_four {n : Nat} (hlow : 0x10000 ≤ n) (hhigh : n < 0x110000) (bytes : List UInt8) :
    scan none (UInt8.ofNat (n / 262144 % 8 + 0xf0) :: UInt8.ofNat (n / 4096 % 64 + 0x80) ::
        UInt8.ofNat (n / 64 % 64 + 0x80) :: UInt8.ofNat (n % 64 + 0x80) :: bytes) =
      some (Char.ofNat n) :: scan none bytes := by
  have hbits : ((n / 262144 % 8 * 0x40 + n / 4096 % 64) * 0x40 + n / 64 % 0x40) * 0x40 +
      n % 0x40 = n := by omega
  have hmin : (if n / 262144 % 8 = 0 then 0x90 else 0x80 : UInt8).toNat ≤
      n / 4096 % 64 + 0x80 := by
    split
    · show 0x90 ≤ _
      omega
    · exact Nat.le_add_left 0x80 _
  have hmax : n / 4096 % 64 + 0x80 ≤
      (if n / 262144 % 8 = 4 then 0x8f else 0xbf : UInt8).toNat := by
    split
    · show _ ≤ 0x8f
      omega
    · show _ ≤ 0xbf
      omega
  rw [scan_lead_four _ (by omega), scan_further (by omega) hmin hmax]
  dsimp only
  rw [scan_later]
  dsimp only
  rw [scan_later]
  dsimp only
  rw [hbits]

/-- A character is decoded from its bytes. -/
theorem scan_encodeChar (c : Char) (bytes : List UInt8) :
    scan none (String.utf8EncodeChar c ++ bytes) = some c :: scan none bytes := by
  have hvalid : c.toNat < 0xd800 ∨ 0xdfff < c.toNat ∧ c.toNat < 0x110000 := c.valid
  have hback : Char.ofNat c.toNat = c := Char.ofNat_toNat c
  by_cases hascii : c.toNat < 0x80
  · have hbyte : c.toUInt8.toNat = c.toNat :=
      (UInt32.toNat_toUInt8 c.val).trans (Nat.mod_eq_of_lt (Nat.lt_trans hascii (by decide)))
    rw [encodeChar_ascii hascii, List.singleton_append, scan_cons, step, lead]
    dsimp only
    rw [hbyte, if_pos hascii, hback, List.singleton_append]
  have hc : c.val.toNat = c.toNat := rfl
  unfold String.utf8EncodeChar
  dsimp only
  rw [hc, if_neg (by omega), ← congrArg some hback]
  split
  · exact scan_two (by omega) (by omega) bytes
  split
  · exact scan_three (by omega) (by omega) (by omega) bytes
  · exact scan_four (by omega) (by omega) bytes

/-- Nothing is lost where a text is decoded that has been encoded. -/
theorem decodeLossy_encode (s : String) : decodeLossy (encode s) = s := by
  have hscan : ∀ cs : List Char, scan none (encodeChars cs) = cs.map some := by
    intro cs
    induction cs with
    | nil => rfl
    | cons c cs ih =>
      rw [encodeChars, List.flatMap_cons, scan_encodeChar, List.map_cons]
      exact congrArg _ ih
  rw [decodeLossy, encode, hscan, List.map_map]
  exact (congrArg String.ofList (List.map_id' _)).trans String.ofList_toList

theorem encode_injective {s t : String} (h : encode s = encode t) : s = t := by
  rw [← decodeLossy_encode s, h, decodeLossy_encode]

theorem encode_ofAscii {bytes : List UInt8} (h : ∀ b ∈ bytes, b.toNat < 0x80) :
    encode (ofAscii bytes) = bytes := by
  have hbyte : ∀ b : UInt8, b.toNat < 0x80 → String.utf8EncodeChar (Char.ofNat b.toNat) = [b] :=
    forall_byte (by decide +kernel)
  rw [encode, ofAscii, String.toList_ofList, encodeChars, List.flatMap_map]
  induction bytes with
  | nil => rfl
  | cons b bytes ih =>
    rw [List.flatMap_cons, hbyte b (h b List.mem_cons_self),
      ih fun c hc => h c (List.mem_cons_of_mem b hc), List.singleton_append]

/-! ## Boundaries -/

/-- An ASCII byte is a character on its own, so another one starts behind it. -/
theorem split_behind_ascii {cs : List Char} {run rest : List UInt8} {b : UInt8}
    (h : encodeChars cs = run ++ b :: rest) (hb : b.toNat < 0x80) :
    ∃ before after, cs = before ++ after ∧ encodeChars after = rest := by
  induction cs generalizing run with
  | nil => exact absurd h.symm (List.append_ne_nil_of_right_ne_nil _ (List.cons_ne_nil _ _))
  | cons c cs ih =>
    have hlater : ∀ run', encodeChars cs = run' ++ b :: rest →
        ∃ before after, c :: cs = before ++ after ∧ encodeChars after = rest := by
      intro run' hrun'
      obtain ⟨before, after, rfl, hafter⟩ := ih hrun'
      exact ⟨c :: before, after, rfl, hafter⟩
    -- The byte stands behind the first character, or the first character reaches to it.
    obtain ⟨run', -, hrun'⟩ | ⟨part, hchar, hpart⟩ := List.append_eq_append_iff.mp h
    · exact hlater run' hrun'
    · cases part with
      | nil => exact hlater [] hpart.symm
      | cons b' part =>
        obtain ⟨rfl, hrest⟩ := List.cons.inj hpart
        -- The byte is the whole character.
        have hmem : b ∈ String.utf8EncodeChar c := by
          rw [hchar]
          exact List.mem_append_right _ (List.mem_cons_self)
        have hascii : c.toNat < 0x80 := Nat.lt_of_not_le fun hlong =>
          absurd (le_of_mem_encodeChar hlong hmem) (Nat.not_le.mpr hb)
        rw [encodeChar_ascii hascii, List.singleton_eq_append_iff] at hchar
        obtain ⟨-, hchar⟩ | ⟨-, hchar⟩ := hchar
        · obtain ⟨-, rfl⟩ := List.cons.inj hchar
          exact ⟨[c], cs, rfl, hrest.symm⟩
        · cases hchar

/-- A byte position between two characters of a text, or at one of its ends. -/
def IsBoundary (src : String) (pos : Nat) : Prop :=
  String.Pos.Raw.IsValid src ⟨pos⟩

instance (src : String) (pos : Nat) : Decidable (IsBoundary src pos) :=
  inferInstanceAs (Decidable (String.Pos.Raw.IsValid src ⟨pos⟩))

/-- The text between two byte positions; none if they are out of order or past the end, or if one of
them is inside a character. -/
def slice? (src : String) (start stop : Nat) : Option String :=
  if h : (start ≤ stop ∧ stop ≤ (encode src).length) ∧
      IsBoundary src start ∧ IsBoundary src stop then
    some (src.extract (src.pos ⟨start⟩ h.2.1) (src.pos ⟨stop⟩ h.2.2))
  else none

theorem isBoundary_append (before after : String) :
    IsBoundary (before ++ after) (encode before).length := by
  rw [length_encode]
  exact String.Pos.Raw.isValid_iff_exists_append.mpr ⟨before, after, rfl, rfl⟩

theorem slice?_append (before middle after : String) :
    slice? (before ++ middle ++ after) (encode before).length
      ((encode before).length + (encode middle).length) = some middle := by
  have hstart : IsBoundary (before ++ middle ++ after) (encode before).length := by
    rw [String.append_assoc]
    exact isBoundary_append before (middle ++ after)
  have hstop : IsBoundary (before ++ middle ++ after)
      ((encode before).length + (encode middle).length) := by
    rw [← List.length_append, ← encode_append]
    exact isBoundary_append (before ++ middle) after
  have hfirst : (String.pos _ _ hstart).Splits before (middle ++ after) :=
    ⟨String.append_assoc, congrArg String.Pos.Raw.mk (length_encode before)⟩
  have hlast : (String.pos _ _ hstop).Splits (before ++ middle) after := by
    refine ⟨rfl, congrArg String.Pos.Raw.mk ?_⟩
    rw [← List.length_append, ← encode_append, length_encode]
  obtain ⟨hle, hcopy⟩ := String.copy_slice_eq_iff_splits.mpr ⟨before, after, hfirst, hlast⟩
  have hlength : (encode before).length + (encode middle).length ≤
      (encode (before ++ middle ++ after)).length := by
    rw [encode_append, encode_append, List.length_append, List.length_append]
    exact Nat.le_add_right _ _
  rw [slice?, dif_pos ⟨⟨Nat.le_add_right _ _, hlength⟩, hstart, hstop⟩,
    String.extract_eq_copy_slice _ _ hle, hcopy]

example : slice? "aé" 2 3 = none := by decide +kernel

/-- Characters are cut out between the positions where they stand. -/
theorem slice?_chars {src : String} {before middle after : List Char}
    (h : src.toList = before ++ middle ++ after) :
    slice? src (encodeChars before).length
      ((encodeChars before).length + (encodeChars middle).length) =
        some (String.ofList middle) := by
  have hencode : ∀ cs, encode (String.ofList cs) = encodeChars cs := by
    intro cs
    rw [encode, String.toList_ofList]
  have hsrc : src = String.ofList before ++ String.ofList middle ++ String.ofList after := by
    rw [← String.ofList_append, ← String.ofList_append, ← h, String.ofList_toList]
  have hslice :=
    slice?_append (String.ofList before) (String.ofList middle) (String.ofList after)
  rwa [hencode, hencode, ← hsrc] at hslice

/-! ## Places -/

/-- Behind a position of a text, at a boundary, stand these bytes. -/
def At (src : String) (pos : Nat) (text : List UInt8) : Prop :=
  ∃ before after, src = before ++ after ∧ (encode before).length = pos ∧ encode after = text

variable {src : String} {pos : Nat} {text run rest : List UInt8}

theorem at_start (src : String) : At src 0 (encode src) :=
  ⟨"", src, String.empty_append.symm, rfl, rfl⟩

theorem at_end (src : String) : At src (encode src).length [] :=
  ⟨src, "", String.append_empty.symm, rfl, rfl⟩

theorem At.drop_eq (h : At src pos text) : (encode src).drop pos = text := by
  obtain ⟨before, after, rfl, rfl, rfl⟩ := h
  rw [encode_append, List.drop_left]

theorem At.add_length (h : At src pos text) : pos + text.length = (encode src).length := by
  obtain ⟨before, after, rfl, rfl, rfl⟩ := h
  rw [encode_append, List.length_append]

theorem At.getElem?_eq (h : At src pos text) : (encode src)[pos]? = text.head? := by
  rw [← h.drop_eq, List.head?_drop]

/-- Behind an ASCII byte is a boundary, whatever stands before it. -/
theorem At.behind_ascii {b : UInt8} (h : At src pos (run ++ b :: rest)) (hb : b.toNat < 0x80) :
    At src (pos + (run.length + 1)) rest := by
  have hlength := h.add_length
  obtain ⟨before, after, rfl, rfl, hafter⟩ := h
  obtain ⟨skipped, left, hsplit, hleft⟩ := split_behind_ascii hafter hb
  have hsrc : before ++ after = before ++ String.ofList skipped ++ String.ofList left := by
    rw [String.append_assoc, ← String.ofList_append, ← hsplit, String.ofList_toList]
  have hrest : encode (String.ofList left) = rest := by
    rw [encode, String.toList_ofList, hleft]
  refine ⟨_, _, hsrc, ?_, hrest⟩
  rw [hsrc, encode_append, List.length_append, hrest, List.length_append, List.length_cons]
    at hlength
  omega

theorem At.cons {b : UInt8} (h : At src pos (b :: rest)) (hb : b.toNat < 0x80) :
    At src (pos + 1) rest :=
  At.behind_ascii (show At src pos ([] ++ b :: rest) from h) hb

/-- Behind ASCII bytes is a boundary. -/
theorem At.append (h : At src pos (run ++ rest)) (hrun : ∀ b ∈ run, b.toNat < 0x80) :
    At src (pos + run.length) rest := by
  induction run generalizing pos with
  | nil => exact h
  | cons b run ih =>
    have hnext := ih (h.cons (hrun b List.mem_cons_self))
      fun c hc => hrun c (List.mem_cons_of_mem b hc)
    rwa [Nat.add_assoc, Nat.add_comm 1] at hnext

theorem At.dropWhile {p : UInt8 → Bool} (h : At src pos text)
    (hp : ∀ b, p b = true → b.toNat < 0x80) :
    At src (pos + (text.takeWhile p).length) (text.dropWhile p) := by
  rw [← List.takeWhile_append_dropWhile (p := p) (l := text)] at h
  exact h.append fun b hb => hp b (List.all_eq_true.mp List.all_takeWhile b hb)

/-- What is left of a text is nothing, or stands behind an ASCII byte. -/
def Stops (text rest : List UInt8) : Prop :=
  rest = [] ∨ ∃ run b, text = run ++ b :: rest ∧ b.toNat < 0x80

theorem Stops.cons (h : Stops text rest) (b : UInt8) : Stops (b :: text) rest := by
  obtain hend | ⟨run, c, rfl, hc⟩ := h
  · exact .inl hend
  · exact .inr ⟨b :: run, c, rfl, hc⟩

/-- A reader that stops behind an ASCII byte or at the end stops at a boundary. -/
theorem At.stop (h : At src pos text) (hstop : Stops text rest) :
    At src (pos + (text.length - rest.length)) rest := by
  have hlength := h.add_length
  obtain rfl | ⟨run, b, rfl, hb⟩ := hstop
  · rw [List.length_nil, Nat.sub_zero, hlength]
    exact at_end src
  · have hconsumed : (run ++ b :: rest).length - rest.length = run.length + 1 := by
      rw [List.length_append, List.length_cons]
      omega
    rw [hconsumed]
    exact h.behind_ascii hb

/-- The bytes up to the end are cut out as the text that they are decoded to. -/
theorem At.slice_rest (h : At src pos text) :
    slice? src pos (encode src).length = some (decodeLossy text) := by
  obtain ⟨before, after, rfl, rfl, rfl⟩ := h
  have hslice := slice?_append before after ""
  rw [String.append_empty] at hslice
  rw [encode_append, List.length_append, hslice, decodeLossy_encode]

/-- ASCII bytes are cut out as characters. -/
theorem At.slice_run (h : At src pos (run ++ rest)) (hrun : ∀ b ∈ run, b.toNat < 0x80) :
    slice? src pos (pos + run.length) = some (ofAscii run) := by
  obtain ⟨-, after, -, -, rfl⟩ := h.append hrun
  obtain ⟨before, both, rfl, rfl, hboth⟩ := h
  have hmiddle := encode_ofAscii hrun
  obtain rfl : both = ofAscii run ++ after := by
    apply encode_injective
    rw [hboth, encode_append, hmiddle]
  have hslice := slice?_append before (ofAscii run) after
  rwa [hmiddle, String.append_assoc] at hslice

end PropellerAsm.Utf8
