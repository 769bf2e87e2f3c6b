import InvertibleGrammar.Proofs.Utf8
import Mathlib.Algebra.Group.Nat.Defs
import Mathlib.Data.List.Induction
import Mathlib.Tactic.SplitIfs

/-!
# The bytes of a character

A lead byte says how many bytes are to follow it and begins a number with its remaining
bits; each byte that follows adds six bits. The bytes of a character spell its number in
this way, and they are the shortest sequence that does. A sequence is settled by its
length and its number, so no other bytes are those of the character.
-/

namespace InvertibleGrammar.Utf8

/-! ## Numbers in bytes -/

/-- Whether a byte carries on what a lead byte began. -/
def isContinuation (b : UInt8) : Bool := 0x80 ≤ b.toNat && b.toNat < 0xC0

/-- How many bytes are to follow a lead byte, and the bits with which it begins a number. -/
def lead? (b : UInt8) : Option (Nat × Nat) :=
  if b.toNat < 0x80 then some (0, b.toNat)
  else if b.toNat < 0xC0 then none
  else if b.toNat < 0xE0 then some (1, b.toNat - 0xC0)
  else if b.toNat < 0xF0 then some (2, b.toNat - 0xE0)
  else if b.toNat < 0xF8 then some (3, b.toNat - 0xF0)
  else none

/-- The number that is begun with some bits and to which each byte adds six. -/
def number (bits : Nat) (followers : Run UInt8) : Nat :=
  followers.foldl (fun begun b => 64 * begun + (b.toNat - 0x80)) bits

/-- The number of bytes after the lead byte in the shortest sequence for a number. -/
def shortest (n : Nat) : Nat :=
  if n ≤ 0x7F then 0 else if n ≤ 0x7FF then 1 else if n ≤ 0xFFFF then 2 else 3

/-- A lead byte and the bytes it calls for spell a number. -/
def Spells (first : UInt8) (followers : Run UInt8) (n : Nat) : Prop :=
  ∃ bits, lead? first = some (followers.length, bits) ∧
    (∀ b ∈ followers, isContinuation b = true) ∧ number bits followers = n

theorem isContinuation_iff {b : UInt8} :
    isContinuation b = true ↔ 0x80 ≤ b.toNat ∧ b.toNat < 0xC0 := by
  rw [isContinuation, Bool.and_eq_true, decide_eq_true_iff, decide_eq_true_iff]

theorem number_append_singleton (bits : Nat) (followers : Run UInt8) (b : UInt8) :
    number bits (followers ++ [b]) = 64 * number bits followers + (b.toNat - 0x80) := by
  rw [number, List.foldl_append]
  rfl

/-- The bits that were begun with come before six for each byte. -/
theorem number_lt {bits : Nat} {followers : Run UInt8}
    (h : ∀ b ∈ followers, isContinuation b = true) :
    number bits followers < (bits + 1) * 64 ^ followers.length := by
  induction followers using List.reverseRecOn with
  | nil =>
      change bits < (bits + 1) * 1
      omega
  | append_singleton followers b ih =>
      have hbefore := ih fun a ha => h a (List.mem_append_left _ ha)
      have hlast := isContinuation_iff.mp (h b (List.mem_append_right _ List.mem_cons_self))
      rw [number_append_singleton, List.length_append, List.length_singleton, Nat.pow_succ,
        ← Nat.mul_assoc]
      omega

/-- Six bits at a time, a number gives back the bits and the bytes it was made of. -/
theorem number_inj {bits bits' : Nat} {followers followers' : Run UInt8}
    (hlength : followers.length = followers'.length)
    (h : ∀ b ∈ followers, isContinuation b = true)
    (h' : ∀ b ∈ followers', isContinuation b = true)
    (hnumber : number bits followers = number bits' followers') :
    bits = bits' ∧ followers = followers' := by
  -- From the last byte on: it is the remainder modulo 64, and what it was added to the quotient.
  induction followers using List.reverseRecOn generalizing followers' with
  | nil =>
      obtain rfl := List.length_eq_zero_iff.mp hlength.symm
      exact ⟨hnumber, rfl⟩
  | append_singleton followers b ih =>
      rcases List.eq_nil_or_concat followers' with rfl | ⟨others, b', rfl⟩
      · simp at hlength
      · rw [List.concat_eq_append] at hlength h' hnumber ⊢
        have hlast := isContinuation_iff.mp (h b (List.mem_append_right _ List.mem_cons_self))
        have hlast' := isContinuation_iff.mp (h' b' (List.mem_append_right _ List.mem_cons_self))
        rw [number_append_singleton, number_append_singleton] at hnumber
        have hbyte : b = b' := UInt8.toNat_inj.mp (by omega)
        have hbegun : number bits followers = number bits' others := by omega
        obtain ⟨hbits, hfollowers⟩ := ih (by simpa using hlength)
          (fun a ha => h a (List.mem_append_left _ ha))
          (fun a ha => h' a (List.mem_append_left _ ha)) hbegun
        exact ⟨hbits, by rw [hfollowers, hbyte]⟩

/-! ## Lead bytes -/

theorem lead?_eq_some_iff {first : UInt8} {count bits : Nat} :
    lead? first = some (count, bits) ↔
      count = 0 ∧ bits < 0x80 ∧ first.toNat = bits ∨
        count = 1 ∧ bits < 0x20 ∧ first.toNat = 0xC0 + bits ∨
        count = 2 ∧ bits < 0x10 ∧ first.toNat = 0xE0 + bits ∨
        count = 3 ∧ bits < 0x08 ∧ first.toNat = 0xF0 + bits := by
  rw [lead?]
  split_ifs <;> simp only [Option.some.injEq, Prod.mk.injEq, false_iff] <;> omega

/-- A lead byte is settled by what it says. -/
theorem lead?_inj {first first' : UInt8} {said : Nat × Nat} (h : lead? first = some said)
    (h' : lead? first' = some said) : first = first' := by
  apply UInt8.toNat_inj.mp
  have hfirst := lead?_eq_some_iff.mp h
  have hfirst' := lead?_eq_some_iff.mp h'
  omega

/-- A sequence is never too short for the number that it spells. -/
theorem Spells.shortest_le {first : UInt8} {followers : Run UInt8} {n : Nat}
    (h : Spells first followers n) : shortest n ≤ followers.length := by
  obtain ⟨bits, hlead, hcontinue, hnumber⟩ := h
  have hlt : number bits followers < (bits + 1) * 64 ^ followers.length := number_lt hcontinue
  rw [hnumber] at hlt
  rw [shortest]
  rcases lead?_eq_some_iff.mp hlead with ⟨hcount, hbits, _⟩ | ⟨hcount, hbits, _⟩ |
    ⟨hcount, hbits, _⟩ | ⟨hcount, hbits, _⟩
  all_goals
    rw [hcount] at hlt ⊢
    split_ifs <;> omega

/-- No two sequences of one length spell the same number. -/
theorem Spells.unique {first first' : UInt8} {followers followers' : Run UInt8} {n : Nat}
    (h : Spells first followers n) (h' : Spells first' followers' n)
    (hlength : followers.length = followers'.length) :
    first = first' ∧ followers = followers' := by
  obtain ⟨bits, hlead, hcontinue, hnumber⟩ := h
  obtain ⟨bits', hlead', hcontinue', hnumber'⟩ := h'
  obtain ⟨rfl, rfl⟩ := number_inj hlength hcontinue hcontinue' (hnumber.trans hnumber'.symm)
  exact ⟨lead?_inj hlead hlead', rfl⟩

/-! ## Characters -/

/-- The byte that adds the last six bits of a number. -/
def sixBits (n : Nat) : UInt8 := .ofNat (n % 64 + 128)

@[simp] theorem toNat_sixBits (n : Nat) : (sixBits n).toNat = n % 64 + 128 := by
  rw [sixBits, UInt8.toNat_ofNat']
  omega

@[simp] theorem isContinuation_sixBits (n : Nat) : isContinuation (sixBits n) = true := by
  rw [isContinuation_iff, toNat_sixBits]
  omega

/-- The bytes of a character are the shortest sequence that spells its number. -/
theorem utf8EncodeChar_spells (c : Char) :
    ∃ first followers, String.utf8EncodeChar c = first :: followers ∧
      Spells first followers c.toNat ∧ followers.length = shortest c.toNat := by
  have hval : c.val.toNat = c.toNat := rfl
  have hvalid : c.toNat < 0xD800 ∨ 0xDFFF < c.toNat ∧ c.toNat < 0x110000 := c.valid
  simp only [String.utf8EncodeChar, hval, shortest]
  split_ifs with hone htwo hthree
  · have hlead : lead? (.ofNat c.toNat) = some (0, c.toNat) := by
      rw [lead?_eq_some_iff, UInt8.toNat_ofNat']
      omega
    exact ⟨_, [], rfl, ⟨c.toNat, hlead, nofun, rfl⟩, rfl⟩
  · have hlead : lead? (.ofNat (c.toNat / 64 % 32 + 192)) = some (1, c.toNat / 64 % 32) := by
      rw [lead?_eq_some_iff, UInt8.toNat_ofNat']
      omega
    refine ⟨_, [sixBits c.toNat], rfl, ⟨_, hlead, by simp, ?_⟩, rfl⟩
    simp only [number, List.foldl_cons, List.foldl_nil, toNat_sixBits]
    omega
  · have hlead : lead? (.ofNat (c.toNat / 4096 % 16 + 224)) = some (2, c.toNat / 4096 % 16) := by
      rw [lead?_eq_some_iff, UInt8.toNat_ofNat']
      omega
    refine ⟨_, [sixBits (c.toNat / 64), sixBits c.toNat], rfl, ⟨_, hlead, by simp, ?_⟩, rfl⟩
    simp only [number, List.foldl_cons, List.foldl_nil, toNat_sixBits]
    omega
  · have hlead : lead? (.ofNat (c.toNat / 262144 % 8 + 240)) = some (3, c.toNat / 262144 % 8) := by
      rw [lead?_eq_some_iff, UInt8.toNat_ofNat']
      omega
    refine ⟨_, [sixBits (c.toNat / 4096), sixBits (c.toNat / 64), sixBits c.toNat], rfl,
      ⟨_, hlead, by simp, ?_⟩, rfl⟩
    simp only [number, List.foldl_cons, List.foldl_nil, toNat_sixBits]
    omega

/-- The shortest sequence that spells the number of a character is its bytes. -/
theorem Spells.eq_utf8EncodeChar {first : UInt8} {followers : Run UInt8} {c : Char}
    (h : Spells first followers c.toNat) (hlength : followers.length = shortest c.toNat) :
    String.utf8EncodeChar c = first :: followers := by
  obtain ⟨first', followers', hbytes, hspells, hlength'⟩ := utf8EncodeChar_spells c
  obtain ⟨rfl, rfl⟩ := h.unique hspells (hlength.trans hlength'.symm)
  exact hbytes

end InvertibleGrammar.Utf8
