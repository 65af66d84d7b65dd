import Agiru.Library.Bytes

/-! Characters, their UTF-8 bytes and their UTF-16 units.

A text is a list of characters, which are Unicode scalars. `point` is the UTF-8 form of
any code point, a surrogate too; on the scalars it is the form of the character. -/
namespace Utf

/-- The UTF-8 bytes of a text. -/
def utf8 (text : List Char) : Bytes := text.flatMap String.utf8EncodeChar

/-- The UTF-8 form of a code point. -/
def point (n : Nat) : Bytes :=
  if n < 0x80 then [UInt8.ofNat n]
  else if n < 0x800 then [UInt8.ofNat (0xC0 + n / 64), UInt8.ofNat (0x80 + n % 64)]
  else if n < 0x10000 then
    [UInt8.ofNat (0xE0 + n / 4096), UInt8.ofNat (0x80 + n / 64 % 64), UInt8.ofNat (0x80 + n % 64)]
  else
    [UInt8.ofNat (0xF0 + n / 262144), UInt8.ofNat (0x80 + n / 4096 % 64),
      UInt8.ofNat (0x80 + n / 64 % 64), UInt8.ofNat (0x80 + n % 64)]

/-- The UTF-16 units of a code point. -/
def pointUnits (n : Nat) : List Nat :=
  if n < 0x10000 then [n] else [0xD800 + (n - 0x10000) / 0x400, 0xDC00 + (n - 0x10000) % 0x400]

/-- The UTF-16 units of a text. -/
def utf16 (text : List Char) : List Nat := text.flatMap fun c => pointUnits c.toNat

@[simp] theorem utf8_nil : utf8 [] = [] := rfl

@[simp] theorem utf8_append (a b : List Char) : utf8 (a ++ b) = utf8 a ++ utf8 b := List.flatMap_append

@[simp] theorem utf16_nil : utf16 [] = [] := rfl

@[simp] theorem utf16_cons (c : Char) (text : List Char) :
    utf16 (c :: text) = pointUnits c.toNat ++ utf16 text := rfl

@[simp] theorem utf16_append (a b : List Char) : utf16 (a ++ b) = utf16 a ++ utf16 b :=
  List.flatMap_append

theorem scalar_lt (c : Char) : c.toNat < 0x110000 := by
  have := c.valid
  simp only [UInt32.isValidChar, Nat.isValidChar] at this
  show c.val.toNat < _
  omega

theorem utf8EncodeChar_eq (c : Char) : String.utf8EncodeChar c = point c.toNat := by
  have hlt : c.val.toNat < 0x110000 := scalar_lt c
  unfold String.utf8EncodeChar point
  rw [show c.toNat = c.val.toNat from rfl]
  dsimp only
  generalize c.val.toNat = n at hlt ⊢
  by_cases h1 : n < 0x80
  · rw [if_pos h1, if_pos (by omega)]
  · rw [if_neg h1, if_neg (by omega)]
    by_cases h2 : n < 0x800
    · rw [if_pos h2, if_pos (by omega), show n / 64 % 0x20 + 0xc0 = 0xC0 + n / 64 by omega,
        show n % 0x40 + 0x80 = 0x80 + n % 64 by omega]
    · rw [if_neg h2, if_neg (by omega)]
      by_cases h3 : n < 0x10000
      · rw [if_pos h3, if_pos (by omega), show n / 4096 % 0x10 + 0xe0 = 0xE0 + n / 4096 by omega,
          show n / 64 % 0x40 + 0x80 = 0x80 + n / 64 % 64 by omega,
          show n % 0x40 + 0x80 = 0x80 + n % 64 by omega]
      · rw [if_neg h3, if_neg (by omega), show n / 262144 % 0x08 + 0xf0 = 0xF0 + n / 262144 by omega,
          show n / 4096 % 0x40 + 0x80 = 0x80 + n / 4096 % 64 by omega,
          show n / 64 % 0x40 + 0x80 = 0x80 + n / 64 % 64 by omega,
          show n % 0x40 + 0x80 = 0x80 + n % 64 by omega]

theorem utf8_cons (c : Char) (text : List Char) : utf8 (c :: text) = point c.toNat ++ utf8 text := by
  rw [← utf8EncodeChar_eq]
  rfl

/-! ### The first byte tells how many units there are -/

/-- A byte that goes on with a character. -/
def continues (b : UInt8) : Prop := b.toNat / 64 = 2

theorem toNat_ofNat {n : Nat} (h : n < 256) : (UInt8.ofNat n).toNat = n := by
  rw [UInt8.toNat_ofNat']
  exact Nat.mod_eq_of_lt h

/-- The form of a code point: a first byte, which tells whether there are two units, and
bytes that go on. -/
theorem point_shape {n : Nat} (hn : n < 0x110000) :
    ∃ first rest, point n = first :: rest ∧ ¬ continues first ∧ (∀ b ∈ rest, continues b) ∧
      (pointUnits n).length = if 0xF0 ≤ first.toNat then 2 else 1 := by
  have hbyte : ∀ m, continues (UInt8.ofNat (0x80 + m % 64)) := fun m => by
    rw [continues, toNat_ofNat (by omega)]
    omega
  unfold point pointUnits
  by_cases h1 : n < 0x80
  · rw [if_pos h1, if_pos (by omega)]
    refine ⟨_, _, rfl, ?_, by simp, ?_⟩
    · rw [continues, toNat_ofNat (by omega)]
      omega
    · rw [toNat_ofNat (by omega), if_neg (by omega)]
      rfl
  · rw [if_neg h1]
    by_cases h2 : n < 0x800
    · rw [if_pos h2, if_pos (by omega)]
      refine ⟨_, _, rfl, ?_, List.forall_mem_singleton.mpr (hbyte n), ?_⟩
      · rw [continues, toNat_ofNat (by omega)]
        omega
      · rw [toNat_ofNat (by omega), if_neg (by omega)]
        rfl
    · rw [if_neg h2]
      by_cases h3 : n < 0x10000
      · rw [if_pos h3, if_pos h3]
        refine ⟨_, _, rfl, ?_, List.forall_mem_cons.mpr ⟨hbyte (n / 64), List.forall_mem_singleton.mpr (hbyte n)⟩, ?_⟩
        · rw [continues, toNat_ofNat (by omega)]
          omega
        · rw [toNat_ofNat (by omega), if_neg (by omega)]
          rfl
      · rw [if_neg h3, if_neg h3]
        refine ⟨_, _, rfl, ?_, List.forall_mem_cons.mpr ⟨hbyte (n / 4096), List.forall_mem_cons.mpr
          ⟨hbyte (n / 64), List.forall_mem_singleton.mpr (hbyte n)⟩⟩, ?_⟩
        · rw [continues, toNat_ofNat (by omega)]
          omega
        · rw [toNat_ofNat (by omega), if_pos (by omega)]
          rfl

/-- No code point has no form and no unit. -/
theorem pointUnits_length_pos (n : Nat) : 0 < (pointUnits n).length := by
  unfold pointUnits
  split <;> simp

end Utf
