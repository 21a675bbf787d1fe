import PropellerAsm.Text.Utf8

/-!
# ASCII texts

A text whose bytes are all below 128 has one character for each byte.  This gives the characters of
a written-out text from its bytes.
-/
namespace PropellerAsm.Utf8

theorem encode_eq_bytes (s : String) : encode s = s.toByteArray.data.toList := by
  rw [← String.utf8Encode_toList, List.utf8Encode, List.toList_data_toByteArray]
  rfl

theorem encode_append (s t : String) : encode (s ++ t) = encode s ++ encode t := by
  rw [encode, String.toList_append, encodeChars_append]
  rfl

theorem length_encode (s : String) : (encode s).length = s.utf8ByteSize := by
  rw [encode_eq_bytes, Array.length_toList]
  rfl

/-- An ASCII character is a single byte. -/
theorem encodeChar_ascii {c : Char} (h : c.toNat < 0x80) :
    String.utf8EncodeChar c = [c.toUInt8] :=
  if_pos (Nat.lt_succ_iff.mp h)

/-- A longer character has no ASCII byte. -/
theorem le_of_mem_encodeChar {c : Char} (h : 0x80 ≤ c.toNat) {b : UInt8}
    (hb : b ∈ String.utf8EncodeChar c) : 0x80 ≤ b.toNat := by
  have hlong : ¬ c.val.toNat ≤ 0x7f := by
    have hc : 0x80 ≤ c.val.toNat := h
    omega
  -- A lead byte or a byte that goes on with the character: part of its number above an offset.
  have hbyte : ∀ n m k, 0 < m → 0x80 ≤ k → m + k ≤ 0x100 →
      0x80 ≤ (UInt8.ofNat (n % m + k)).toNat := by
    intro n m k hm hk hsum
    have hlt := Nat.mod_lt n hm
    rw [UInt8.toNat_ofNat', Nat.mod_eq_of_lt (by omega)]
    omega
  unfold String.utf8EncodeChar at hb
  dsimp only at hb
  rw [if_neg hlong] at hb
  split at hb
  · simp only [List.mem_cons, List.not_mem_nil, or_false] at hb
    rcases hb with rfl | rfl
    all_goals exact hbyte _ _ _ (by decide) (by decide) (by decide)
  · split at hb
    · simp only [List.mem_cons, List.not_mem_nil, or_false] at hb
      rcases hb with rfl | rfl | rfl
      all_goals exact hbyte _ _ _ (by decide) (by decide) (by decide)
    · simp only [List.mem_cons, List.not_mem_nil, or_false] at hb
      rcases hb with rfl | rfl | rfl | rfl
      all_goals exact hbyte _ _ _ (by decide) (by decide) (by decide)

/-- A character whose bytes are below 128 is its only byte. -/
theorem encodeChar_of_ascii {c : Char} (h : ∀ b ∈ String.utf8EncodeChar c, b.toNat < 128) :
    String.utf8EncodeChar c = [UInt8.ofNat c.toNat] ∧ c.toNat < 128 := by
  by_cases hascii : c.toNat < 128
  · exact ⟨encodeChar_ascii hascii, hascii⟩
  · obtain ⟨b, hb⟩ := List.exists_mem_of_ne_nil _ (String.utf8EncodeChar_ne_nil (c := c))
    have hle := le_of_mem_encodeChar (by omega) hb
    exact absurd (h b hb) (by omega)

theorem chars_of_ascii {cs : List Char} (h : ∀ b ∈ encodeChars cs, b.toNat < 128) :
    cs = (encodeChars cs).map fun b => Char.ofNat b.toNat := by
  induction cs with
  | nil => rfl
  | cons c cs ih =>
    have hbytes : encodeChars (c :: cs) = String.utf8EncodeChar c ++ encodeChars cs := rfl
    rw [hbytes] at h ⊢
    obtain ⟨hchar, hlt⟩ := encodeChar_of_ascii fun b hb => h b (List.mem_append_left _ hb)
    have hrest := ih fun b hb => h b (List.mem_append_right _ hb)
    have hback : Char.ofNat (UInt8.ofNat c.toNat).toNat = c := by
      rw [UInt8.toNat_ofNat', Nat.mod_eq_of_lt (by omega), Char.ofNat_toNat]
    rw [hchar, List.map_append, ← hrest, List.map_singleton, hback]
    rfl

/-- The characters of an ASCII text, byte by byte. -/
theorem toList_of_ascii {s : String} (h : ∀ b ∈ s.toByteArray.data.toList, b.toNat < 128) :
    s.toList = s.toByteArray.data.toList.map fun b => Char.ofNat b.toNat := by
  rw [← encode_eq_bytes] at h ⊢
  exact chars_of_ascii h

end PropellerAsm.Utf8
