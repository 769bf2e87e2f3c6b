/-!
# Symbols

A grammar reads and writes either characters or bytes. What it has to know of
either is how many bytes a symbol takes, which character it stands for, and how
a character is spelled in such symbols. Spelling and standing for agree on ASCII,
the only characters that the grammars themselves speak of.
-/

namespace InvertibleGrammar

/-- A unit of input: a character of a text or a byte of a byte string. -/
class Symbol (σ : Type) where
  /-- The number of bytes that a symbol takes. -/
  width : σ → Nat
  /-- The character that a symbol stands for. -/
  toChar : σ → Char
  /-- The symbols that write a character. -/
  spell : Char → List σ
  width_pos : ∀ s, 0 < width s
  spell_toChar : ∀ s, (toChar s).toNat < 128 → spell (toChar s) = [s]
  map_toChar_spell : ∀ c : Char, c.toNat < 128 → (spell c).map toChar = [c]

namespace Symbol

/-- A character takes as many bytes as its UTF-8 form and spells itself. -/
instance : Symbol Char where
  width := Char.utf8Size
  toChar c := c
  spell c := [c]
  width_pos := Char.utf8Size_pos
  spell_toChar _ _ := rfl
  map_toChar_spell _ _ := rfl

/-- The character whose code is the byte's value. -/
def charOfByte (b : UInt8) : Char := Char.ofNat b.toNat

theorem toNat_charOfByte (b : UInt8) : (charOfByte b).toNat = b.toNat := by
  have h : b.toNat.isValidChar := Or.inl (by have := b.toNat_lt; omega)
  have hchar : charOfByte b = Char.ofNatAux b.toNat h := dif_pos h
  rw [hchar]
  rfl

theorem utf8EncodeChar_of_lt {c : Char} (h : c.toNat < 128) :
    String.utf8EncodeChar c = [UInt8.ofNat c.toNat] :=
  if_pos (Nat.le_of_lt_succ h)

/-- A byte stands for the character of its value; a character is spelled in UTF-8. -/
instance : Symbol UInt8 where
  width _ := 1
  toChar := charOfByte
  spell := String.utf8EncodeChar
  width_pos _ := Nat.one_pos
  spell_toChar b h := by
    rw [utf8EncodeChar_of_lt h, toNat_charOfByte, UInt8.ofNat_toNat]
  map_toChar_spell c h := by
    have hc : (UInt8.ofNat c.toNat).toNat = c.toNat := by
      simp [UInt8.toNat_ofNat', Nat.mod_eq_of_lt (show c.toNat < 256 by omega)]
    rw [utf8EncodeChar_of_lt h, List.map_singleton, charOfByte, hc, Char.ofNat_toNat]

end Symbol

end InvertibleGrammar
