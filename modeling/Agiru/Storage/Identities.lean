import Agiru.Library.Joined
import Agiru.Storage.DateFormula
import Agiru.Storage.Instants
import Agiru.Values.Field

/-! GUIDs, bytes and record ids, as columns hold them.

A record id is its table's number, its caption and its key's values, with a separator before each
but the first. It is read back where they keep clear of the separator (`RecordId.ofStorageText_storage`). -/
namespace Agiru.Storage
open Bytes

/-! ### Hexadecimal -/

theorem forall_byte {p : UInt8 → Prop} (h : ∀ n < 256, p (UInt8.ofNat n)) (b : UInt8) : p b := by
  have hb := h b.toNat (UInt8.toNat_lt b)
  rwa [UInt8.ofNat_toNat] at hb

def notHexadecimal : Bytes := ascii "a GUID is written in hexadecimal"
def wrongLength : Bytes := ascii "a GUID is sixteen bytes, and this text is not"

/-- The loop of `Guid::FromText`: so many bytes are still wanted. -/
def hexBytes (cursor : Nat) : Bytes → Nat → Except Refusal Bytes
  | _, 0 => .ok []
  | [], _ + 1 => .error ⟨wrongLength, 0⟩
  | [_], _ + 1 => .error ⟨wrongLength, 0⟩
  | c :: d :: rest, wanted + 1 =>
    if c = Ch.minus then hexBytes (cursor + 1) (d :: rest) (wanted + 1)
    else
      match digitIn 16 c, digitIn 16 d with
      | some high, some low => (hexBytes (cursor + 2) rest wanted).map (UInt8.ofNat (high * 16 + low) :: ·)
      | _, _ => .error ⟨notHexadecimal, cursor + 1⟩

theorem hexBytes_length {cursor wanted : Nat} {text bytes : Bytes} (h : hexBytes cursor text wanted = .ok bytes) :
    bytes.length = wanted := by
  induction cursor, text, wanted using hexBytes.induct generalizing bytes with
  | case1 cursor text =>
    rw [hexBytes] at h
    cases h
    rfl
  | case2 | case3 => cases h
  | case4 cursor d rest wanted ih =>
    rw [hexBytes, if_pos rfl] at h
    exact ih h
  | case5 cursor c d rest wanted hc high low hhigh hlow ih =>
    rw [hexBytes, if_neg hc, hhigh, hlow] at h
    obtain ⟨tail, htail, rfl⟩ := Fallible.of_map h
    rw [List.length_cons, ih htail]
  | case6 cursor c d rest wanted hc hnot =>
    rw [hexBytes, if_neg hc] at h
    split at h
    · rename_i hhigh hlow
      exact (hnot _ _ hhigh hlow).elim
    · cases h

/-- The text between braces. -/
def unbraced (text : Bytes) : Bytes :=
  if text.head? = some 0x7B ∧ text.getLast? = some 0x7D then (text.drop 1).dropLast else text

/-- `Guid::FromText`. -/
def guidFromText (text : Bytes) : Except Refusal Guid :=
  match h : hexBytes 0 (unbraced text) 16 with
  | .error refusal => .error refusal
  | .ok bytes => .ok ⟨bytes, hexBytes_length h⟩

/-- The bytes of a group are read of it. -/
theorem hexBytes_group (bytes : Bytes) (cursor : Nat) (rest : Bytes) (wanted : Nat) :
    hexBytes cursor (bytes.flatMap (hexByte true) ++ rest) (bytes.length + wanted) =
      (hexBytes (cursor + 2 * bytes.length) rest wanted).map (bytes ++ ·) := by
  induction bytes generalizing cursor with
  | nil =>
    simp only [List.flatMap_nil, List.nil_append, List.length_nil, Nat.zero_add, Nat.mul_zero, Nat.add_zero]
    cases hexBytes cursor rest wanted <;> rfl
  | cons b bytes ih =>
    have hbyte : hexDigit true (b.toNat / 16) ≠ Ch.minus ∧
        digitIn 16 (hexDigit true (b.toNat / 16)) = some (b.toNat / 16) ∧
        digitIn 16 (hexDigit true (b.toNat % 16)) = some (b.toNat % 16) :=
      forall_byte (p := fun b => hexDigit true (b.toNat / 16) ≠ Ch.minus ∧
        digitIn 16 (hexDigit true (b.toNat / 16)) = some (b.toNat / 16) ∧
        digitIn 16 (hexDigit true (b.toNat % 16)) = some (b.toNat % 16)) (by decide +kernel) b
    have hvalue : UInt8.ofNat (b.toNat / 16 * 16 + b.toNat % 16) = b := by
      rw [Nat.div_add_mod', UInt8.ofNat_toNat]
    rw [List.flatMap_cons, hexByte, List.length_cons,
      show bytes.length + 1 + wanted = bytes.length + wanted + 1 by omega]
    simp only [List.cons_append, List.nil_append]
    rw [hexBytes, if_neg hbyte.1, hbyte.2.1, hbyte.2.2]
    dsimp only
    rw [ih, hvalue, show cursor + 2 + 2 * bytes.length = cursor + 2 * (bytes.length + 1) by omega]
    cases hexBytes (cursor + 2 * (bytes.length + 1)) rest wanted <;> rfl

/-- A hyphen before a group is skipped. -/
theorem hexBytes_hyphen {bytes : Bytes} (hne : bytes ≠ []) (cursor : Nat) (rest : Bytes) {wanted : Nat}
    (h : 0 < wanted) :
    hexBytes cursor (Ch.minus :: (bytes.flatMap (hexByte true) ++ rest)) wanted =
      hexBytes (cursor + 1) (bytes.flatMap (hexByte true) ++ rest) wanted := by
  obtain ⟨wanted, rfl⟩ := Nat.exists_eq_add_one_of_ne_zero (Nat.ne_of_gt h)
  obtain ⟨b, bytes, rfl⟩ := List.exists_cons_of_ne_nil hne
  rw [List.flatMap_cons, hexByte]
  simp only [List.cons_append]
  rw [hexBytes, if_pos rfl]

/-- The groups of a GUID, one by one. -/
theorem hexBytes_groups {a b c d e : Bytes} (ha : a.length = 4) (hb : b.length = 2) (hc : c.length = 2)
    (hd : d.length = 2) (he : e.length = 6) :
    hexBytes 0 (a.flatMap (hexByte true) ++ (Ch.minus :: (b.flatMap (hexByte true) ++ (Ch.minus ::
      (c.flatMap (hexByte true) ++ (Ch.minus :: (d.flatMap (hexByte true) ++ (Ch.minus ::
        (e.flatMap (hexByte true) ++ [])))))))) ) 16 = .ok (a ++ (b ++ (c ++ (d ++ (e ++ []))))) := by
  have hne : ∀ {l : Bytes} {n : Nat}, l.length = n + 1 → l ≠ [] := by
    rintro l n hl rfl
    cases hl
  have hgroup : ∀ {l : Bytes} {n : Nat}, l.length = n → ∀ cursor rest more,
      hexBytes cursor (l.flatMap (hexByte true) ++ rest) (n + more) =
      (hexBytes (cursor + 2 * n) rest more).map (l ++ ·) := by
    rintro l n rfl cursor rest more
    exact hexBytes_group l cursor rest more
  rw [hgroup ha 0 _ 12, hexBytes_hyphen (hne hb) _ _ (by decide),
    hgroup hb _ _ 10, hexBytes_hyphen (hne hc) _ _ (by decide),
    hgroup hc _ _ 8, hexBytes_hyphen (hne hd) _ _ (by decide),
    hgroup hd _ _ 6, hexBytes_hyphen (hne he) _ _ (by decide), hgroup he _ _ 0, hexBytes]
  rfl

theorem hexBytes_hyphenated (g : Guid) : hexBytes 0 g.hyphenated 16 = .ok g.bytes := by
  obtain ⟨bytes, size⟩ := g
  have hgroups := hexBytes_groups (a := (bytes.drop 0).take 4) (b := (bytes.drop 4).take 2)
      (c := (bytes.drop 6).take 2)
    (d := (bytes.drop 8).take 2) (e := (bytes.drop 10).take 6) (by simp [size]) (by simp [size]) (by simp [size])
    (by simp [size]) (by simp [size])
  have hbytes : (bytes.drop 0).take 4 ++ ((bytes.drop 4).take 2 ++ ((bytes.drop 6).take 2 ++
      ((bytes.drop 8).take 2 ++ ((bytes.drop 10).take 6 ++ [])))) = bytes := by
    have hstep : ∀ n k, (bytes.drop n).take k ++ bytes.drop (n + k) = bytes.drop n := by
      intro n k
      rw [← List.drop_drop]
      exact List.take_append_drop k _
    have hlast : (bytes.drop 10).take 6 ++ [] = bytes.drop 10 := by
      rw [List.append_nil, List.take_of_length_le (by simp [size])]
    rw [hlast, hstep 8 2, hstep 6 2, hstep 4 2, hstep 0 4, List.drop_zero]
  rw [hbytes] at hgroups
  rw [← hgroups, Guid.hyphenated]
  simp only [List.append_assoc, List.nil_append, List.append_nil, List.cons_append]

theorem guidFromText_of_hexBytes {text : Bytes} {g : Guid} (h : hexBytes 0 (unbraced text) 16 = .ok g.bytes) :
    guidFromText text = .ok g := by
  unfold guidFromText
  split
  · rename_i herror
    rw [h] at herror
    cases herror
  · rename_i hread
    rw [h] at hread
    cases hread
    rfl

/-- A GUID's storage text has no braces. -/
theorem guidFromText_hyphenated (g : Guid) : guidFromText g.hyphenated = .ok g := by
  apply guidFromText_of_hexBytes
  have hbare : unbraced g.hyphenated = g.hyphenated := by
    obtain ⟨bytes, size⟩ := g
    obtain ⟨b, bytes, rfl⟩ := List.exists_cons_of_length_eq_add_one size
    have hhead : hexDigit true (b.toNat / 16) ≠ 0x7B :=
      forall_byte (p := fun b => hexDigit true (b.toNat / 16) ≠ 0x7B) (by decide +kernel) b
    apply if_neg
    rintro ⟨h, -⟩
    exact hhead (Option.some.inj h)
  rw [hbare]
  exact hexBytes_hyphenated g

theorem guidFromText_toText (g : Guid) : guidFromText g.toText = .ok g := by
  apply guidFromText_of_hexBytes
  have hbraced : unbraced g.toText = g.hyphenated := by
    have hopen : ascii "\x7b" = [0x7B] := rfl
    have hclose : ascii "\x7d" = [0x7D] := rfl
    rw [unbraced, Guid.toText, hopen, hclose, if_pos ⟨rfl, List.getLast?_concat⟩]
    simp
  rw [hbraced]
  exact hexBytes_hyphenated g

/-! ### Bytes -/

/-- `std::stoul` in base 16; a negative number wraps. -/
def stoul (text : Bytes) : Except ColumnError Nat :=
  match strtol 16 text with
  | none => .error (.notNumber (ascii "stoul"))
  | some n => if n.natAbs < 2 ^ 64 then .ok (n % 2 ^ 64).toNat else .error (.outOfRange (ascii "stoul"))

/-- Two digits for each byte. -/
def byteTexts : Bytes → Except ColumnError Bytes
  | c :: d :: rest => do
    let n ← stoul [c, d]
    let bytes ← byteTexts rest
    return UInt8.ofNat n :: bytes
  | _ => .ok []

/-- A blob's column. -/
def blobFromText (text : Bytes) : Except ColumnError Bytes :=
  byteTexts (if (ascii "\\x").isPrefixOf text then text.drop 2 else [])

theorem stoul_hexByte (b : UInt8) : stoul (hexByte false b) = .ok b.toNat :=
  forall_byte (p := fun b => stoul (hexByte false b) = .ok b.toNat) (by decide +kernel) b

theorem byteTexts_hex (bytes : Bytes) : byteTexts (bytes.flatMap (hexByte false)) = .ok bytes := by
  induction bytes with
  | nil => rfl
  | cons b bytes ih =>
    rw [List.flatMap_cons]
    refine (Fallible.bind_ok (stoul_hexByte b)).trans ?_
    refine (Fallible.bind_ok ih).trans ?_
    rw [UInt8.ofNat_toNat]
    rfl

/-! ### Record ids -/

/-- A record: its table's number, caption, and the values of its key as columns hold them. -/
structure RecordId where
  table : Int32
  caption : Bytes
  key : List Bytes
  deriving DecidableEq

namespace RecordId

def empty : RecordId := ⟨0, [], []⟩

def notAnId : Bytes := ascii "a stored RecordId is a table number, a caption and its key"

/-- `ToStorageText`. -/
def toStorageText (id : RecordId) : Bytes :=
  if id.key = [] then []
  else intText id.table.toInt ++ (id.caption :: id.key).flatMap (Ch.unitSeparator :: ·)

/-- `IsSqlServersBlank`. -/
def isSqlServersBlank (text : Bytes) : Bool :=
  (ascii "\\x").isPrefixOf text && text.drop 2 ≠ [] && (text.drop 2).all (· = Ch.zero)

/-- `FromStorageText`: what it refuses, or what `std::stol` raises. -/
def ofStorageText (text : Bytes) : Except ColumnError (Except Refusal RecordId) :=
  if text = [] || isSqlServersBlank text then .ok (.ok empty)
  else
    match text.splitOn Ch.unitSeparator with
    | number :: caption :: value :: values =>
      if number = [] || !number.all isDigit then .ok (.error ⟨notAnId, 0⟩)
      else (stol number).map fun table => .ok ⟨Int32.ofInt table, caption, value :: values⟩
    | _ => .ok (.error ⟨notAnId, 0⟩)

/-- A record id that its column can name. -/
structure Separable (id : RecordId) : Prop where
  table : 0 ≤ id.table.toInt
  caption : Ch.unitSeparator ∉ id.caption
  key : ∀ value ∈ id.key, Ch.unitSeparator ∉ value

/-- What is between separators has none. -/
theorem not_mem_of_mem_splitOn {separator : UInt8} {text part : Bytes} (h : part ∈ text.splitOn separator) :
    separator ∉ part := by
  induction text generalizing part with
  | nil =>
    rw [List.splitOn_nil] at h
    rw [List.mem_singleton.mp h]
    exact List.not_mem_nil
  | cons c text ih =>
    rw [List.splitOn_cons_eq_if_modifyHead] at h
    split at h
    · rcases List.mem_cons.mp h with rfl | h
      · exact List.not_mem_nil
      · exact ih h
    · rename_i hc
      obtain ⟨head, parts, hparts⟩ := List.exists_cons_of_ne_nil (List.splitOn_ne_nil separator text)
      rw [hparts, List.modifyHead_cons] at h
      rw [hparts] at ih
      rcases List.mem_cons.mp h with rfl | h
      · intro hmem
        rcases List.mem_cons.mp hmem with rfl | hmem
        · exact hc (by simp)
        · exact ih List.mem_cons_self hmem
      · exact ih (List.mem_cons_of_mem _ h)

theorem separator_not_mem_intText (n : Int) : Ch.unitSeparator ∉ intText n := by
  have hdigits : Ch.unitSeparator ∉ natText n.natAbs := fun h => absurd (isDigit_natText h) (by decide)
  unfold intText
  split
  · rw [List.singleton_append, List.mem_cons]
    rintro (h | h)
    · cases h
    · exact hdigits h
  · exact hdigits

/-- A number with a sign is not a table's. -/
theorem intText_digits {n : Int} : (intText n).all isDigit = true ↔ 0 ≤ n := by
  have hdigits : (natText n.natAbs).all isDigit = true := List.all_eq_true.mpr fun _ hc => isDigit_natText hc
  unfold intText
  split
  · rename_i hneg
    rw [List.singleton_append, List.all_cons]
    exact iff_of_false (by simp [show isDigit Ch.minus = false by decide]) (Int.not_le.mpr hneg)
  · rename_i hneg
    exact iff_of_true hdigits (Int.not_lt.mp hneg)

theorem intText_head (n : Int) (rest : Bytes) : ∃ c tail, intText n ++ rest = c :: tail ∧ c ≠ 0x5C := by
  unfold intText
  split
  · exact ⟨_, _, rfl, by decide⟩
  · obtain ⟨c, tail, hnat⟩ := List.exists_cons_of_ne_nil (natText_ne_nil n.natAbs)
    refine ⟨c, tail ++ rest, by rw [hnat]; rfl, ?_⟩
    rintro rfl
    exact absurd (isDigit_natText (hnat ▸ List.mem_cons_self)) (by decide)

/-- The parts of a record id's text. -/
theorem ofStorageText_parts {id : RecordId} (hkey : id.key ≠ []) {caption value : Bytes} {values : List Bytes}
    (hparts : id.toStorageText.splitOn Ch.unitSeparator = intText id.table.toInt :: caption :: value :: values) :
    ofStorageText id.toStorageText =
      if 0 ≤ id.table.toInt then .ok (.ok ⟨id.table, caption, value :: values⟩)
      else .ok (.error ⟨notAnId, 0⟩) := by
  obtain ⟨c, tail, htext, hc⟩ := intText_head id.table.toInt
      ((id.caption :: id.key).flatMap (Ch.unitSeparator :: ·))
  have hform : id.toStorageText = c :: tail := by
    rw [toStorageText, if_neg hkey, htext]
  have hblank : isSqlServersBlank (c :: tail) = false := by
    simp [isSqlServersBlank, ascii, Char.toUInt8, List.isPrefixOf, hc.symm]
  have hstart : ¬ (decide (id.toStorageText = []) || isSqlServersBlank id.toStorageText) = true := by
    rw [hform, hblank]
    simp
  have hne : intText id.table.toInt ≠ [] := by
    unfold intText
    split
    · exact List.cons_ne_nil _ _
    · exact natText_ne_nil _
  rw [ofStorageText, if_neg hstart, hparts]
  dsimp only
  by_cases htable : 0 ≤ id.table.toInt
  · have hread : stol (intText id.table.toInt) = .ok id.table.toInt := by
      have := id.table.le_toInt
      have := id.table.toInt_lt
      exact ranged_intText (by omega) (by omega)
    rw [if_pos htable, if_neg (by simp [hne, intText_digits.mpr htable]), hread, Except.map, Int32.ofInt_toInt]
  · have hdigits : (intText id.table.toInt).all isDigit = false := by
      simpa using mt intText_digits.mp htable
    rw [if_neg htable, if_pos (by simp [hdigits])]

/-- A record id is read back where its column names it. -/
theorem ofStorageText_storage {id : RecordId} (hkey : id.key ≠ []) :
    ofStorageText id.toStorageText = .ok (.ok id) ↔ id.Separable := by
  have hform : id.toStorageText =
      intText id.table.toInt ++ (id.caption :: id.key).flatMap (Ch.unitSeparator :: ·) := if_neg hkey
  constructor
  · intro h
    -- The parts of the text, of which the number is the first.
    have hsplit : id.toStorageText.splitOn Ch.unitSeparator =
        intText id.table.toInt ::
          (id.caption ++ id.key.flatMap (Ch.unitSeparator :: ·)).splitOn Ch.unitSeparator := by
      rw [hform, List.flatMap_cons, List.cons_append,
        List.splitOn_append_cons_self_of_not_mem (separator_not_mem_intText _)]
    obtain ⟨caption, value, values, hrest⟩ : ∃ caption value values,
        (id.caption ++ id.key.flatMap (Ch.unitSeparator :: ·)).splitOn Ch.unitSeparator =
            caption :: value :: values := by
      obtain ⟨first, others, hkeys⟩ := List.exists_cons_of_ne_nil hkey
      rw [hkeys, List.flatMap_cons, List.cons_append, List.splitOn_append_cons_self]
      obtain ⟨a, as, ha⟩ := List.exists_cons_of_ne_nil (List.splitOn_ne_nil Ch.unitSeparator id.caption)
      obtain ⟨b, bs, hb⟩ := List.exists_cons_of_ne_nil
        (List.splitOn_ne_nil Ch.unitSeparator (first ++ others.flatMap (Ch.unitSeparator :: ·)))
      rw [ha, hb]
      cases as with
      | nil => exact ⟨a, b, bs, rfl⟩
      | cons a' as => exact ⟨a, a', as ++ b :: bs, rfl⟩
    have hclear : ∀ part ∈ caption :: value :: values, Ch.unitSeparator ∉ part := by
      intro part hpart
      rw [← hrest] at hpart
      exact not_mem_of_mem_splitOn hpart
    rw [hrest] at hsplit
    rw [ofStorageText_parts hkey hsplit] at h
    by_cases htable : 0 ≤ id.table.toInt
    · rw [if_pos htable] at h
      have hid := Except.ok.inj (Except.ok.inj h)
      obtain ⟨hcaption, hvalues⟩ := List.forall_mem_cons.mp hclear
      refine ⟨htable, ?_, ?_⟩
      · rw [← hid]
        exact hcaption
      · rw [← hid]
        exact hvalues
    · rw [if_neg htable] at h
      cases h
  · intro h
    obtain ⟨value, values, hvalues⟩ := List.exists_cons_of_ne_nil hkey
    have hparts : id.toStorageText.splitOn Ch.unitSeparator =
        intText id.table.toInt :: id.caption :: value :: values := by
      rw [hform, Joined.splitOn_separated (separator_not_mem_intText _) (List.forall_mem_cons.mpr ⟨h.caption, h.key⟩),
          hvalues]
    rw [ofStorageText_parts hkey hparts, if_pos h.table, ← hvalues]

end RecordId
end Agiru.Storage
