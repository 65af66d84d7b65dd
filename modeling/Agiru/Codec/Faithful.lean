import Agiru.Codec.Base64

/-! Base64 is a faithful codec.

`encoded` and `decoded` say what the two functions write; every output that appends, a
text or a stream, gets just that. Encoded bytes decode to themselves, and a text decodes
exactly when it is made of groups. -/
namespace Agiru.Codec.Base64
open Bytes Procedure

/-! ### Outputs that append -/

/-- An output of a content that grows by what is put to it, up to a room, and is settled
once flushed. -/
structure Appends {σ : Type} (output : Output σ) (content : σ → Bytes) (settled : σ → Prop)
    (room : Nat) : Prop where
  put : ∀ s bytes, (content s ++ bytes).length ≤ room →
    ∃ t, exec (output.put bytes) s = (.ok ⟨⟩, t) ∧ content t = content s ++ bytes
  flush : ∀ s, (content s).length ≤ room →
    ∃ t, exec output.flush s = (.ok ⟨⟩, t) ∧ content t = content s ∧ settled t

theorem toText_appends (room : Nat) : Appends toText (fun text => text) (fun _ => True) room where
  put s bytes _ := ⟨s ++ bytes, rfl, rfl⟩
  flush s _ := ⟨s, rfl, rfl, trivial⟩

/-- What is in a stream, and in the scratch buffer before it. -/
def Sink.content (sink : Sink) : Bytes := sink.stream.bytes ++ sink.buffer

theorem exec_flushSink {maximum : Nat} {sink : Sink} (h : sink.content.length ≤ maximum) :
    ∃ t, exec (flushSink maximum) sink = (.ok ⟨⟩, t) ∧ t.content = sink.content ∧ t.buffer = [] := by
  unfold flushSink
  rw [exec_bind, exec_get]
  dsimp only
  by_cases hnil : sink.buffer = []
  · rw [if_pos hnil]
    exact ⟨sink, rfl, rfl, hnil⟩
  · have hroom : sink.stream.bytes.length + sink.buffer.length ≤ maximum := by
      rwa [Sink.content, List.length_append] at h
    have hwrite : exec (onStream (writeBytes maximum sink.buffer)) sink =
        (.ok ⟨⟩, {sink with stream := ⟨sink.stream.bytes ++ sink.buffer, sink.stream.writes + 1⟩}) := by
      unfold onStream
      rw [exec_bind, exec_get]
      dsimp only
      rw [exec_writeBytes hroom]
      rfl
    rw [if_neg hnil, exec_bind, hwrite]
    exact ⟨_, rfl, by simp [Sink.content], rfl⟩

theorem toStream_appends (maximum : Nat) :
    Appends (toStream maximum) Sink.content (fun sink => sink.buffer = []) maximum where
  put sink bytes h := by
    have hput : ∀ t : Sink, t.content = sink.content → ∃ u,
        exec (modify fun t : Sink => {t with buffer := t.buffer ++ bytes} :
          Procedure CodecError Sink PUnit) t = (.ok ⟨⟩, u) ∧ u.content = sink.content ++ bytes :=
      fun t ht => ⟨_, rfl, by rw [← ht, Sink.content, Sink.content, List.append_assoc]⟩
    unfold toStream
    dsimp only
    rw [exec_bind, exec_get]
    dsimp only
    split
    · obtain ⟨t, hflush, hcontent, -⟩ := @exec_flushSink maximum sink (by
        rw [List.length_append] at h
        omega)
      rw [exec_bind, hflush]
      exact hput t hcontent
    · exact hput sink rfl
  flush _ h := exec_flushSink h

/-! ### What is written -/

section Spec
variable (lines : Bool)

/-- What breaks the line before a group, and the column after the group. -/
def lineBreak (column : Nat) : Bytes := if lines ∧ column = lineWidth then ascii "\x0d\n" else []

def nextColumn (column : Nat) : Nat := if lines ∧ column = lineWidth then 4 else column + 4

/-- The characters of bytes, from a column on. -/
def encoded (column : Nat) : Bytes → Bytes
  | [] => []
  | a :: b :: c :: rest =>
    lineBreak lines column ++ encodeGroup [a, b, c] ++ encoded (nextColumn lines column) rest
  | rest => lineBreak lines column ++ encodeGroup rest

end Spec

/-- The bytes of characters, after the values of an incomplete group. -/
def decoded (group : List Nat) (ended : Bool) : Bytes → Option Bytes
  | [] => if group = [] then some [] else none
  | byte :: rest =>
    match valueOf byte with
    | .whitespace => decoded group ended rest
    | .invalid => none
    | .value n =>
      if ended then none
      else
        match group with
        | [a, b, c] =>
          match decodeGroup a b c n with
          | none => none
          | some bytes => (decoded [] (bytes.length < 3) rest).map (bytes ++ ·)
        | _ => decoded (group ++ [n]) ended rest

section Written
variable {σ : Type} {output : Output σ} {live : σ → Bool} {content : σ → Bytes} {settled : σ → Prop}
  {room : Nat} (h : Appends output content settled room) (hlive : ∀ s, live s = true)
include h hlive

theorem exec_putGroup (lines : Bool) (column : Nat) (bytes : Bytes) (s : σ)
    (hroom : (content s ++ (lineBreak lines column ++ encodeGroup bytes)).length ≤ room) :
    ∃ t, exec (putGroup output live lines column bytes) s = (.ok (nextColumn lines column), t) ∧
      content t = content s ++ (lineBreak lines column ++ encodeGroup bytes) := by
  unfold putGroup nextColumn
  unfold lineBreak at hroom ⊢
  rw [exec_bind, exec_get]
  dsimp only
  rw [if_neg (by simp [hlive])]
  by_cases hbreak : lines ∧ column = lineWidth
  · rw [if_pos hbreak] at hroom
    obtain ⟨t, hline, ht⟩ := h.put s (ascii "\x0d\n") (by
      simp only [List.length_append] at hroom ⊢
      omega)
    obtain ⟨u, hgroup, hu⟩ := h.put t (encodeGroup bytes) (by
      rw [ht, List.append_assoc]
      exact hroom)
    refine ⟨u, ?_, by rw [hu, ht, if_pos hbreak, List.append_assoc]⟩
    rw [if_pos hbreak, if_pos hbreak, exec_bind, hline]
    dsimp only
    rw [exec_bind, hgroup]
    rfl
  · rw [if_neg hbreak] at hroom
    obtain ⟨t, hgroup, ht⟩ := h.put s (encodeGroup bytes) hroom
    refine ⟨t, ?_, by rw [ht, if_neg hbreak, List.nil_append]⟩
    rw [if_neg hbreak, if_neg hbreak, exec_bind, hgroup]
    rfl

/-- An output that appends gets the characters of the bytes. -/
theorem exec_encodeFrom (lines : Bool) (column : Nat) (bytes : Bytes) (s : σ)
    (hroom : (content s ++ encoded lines column bytes).length ≤ room) :
    ∃ t, exec (encodeFrom output live lines column bytes) s = (.ok ⟨⟩, t) ∧
      content t = content s ++ encoded lines column bytes ∧ settled t := by
  induction column, bytes using encoded.induct lines generalizing s with
  | case1 column =>
    rw [encoded, List.append_nil] at hroom ⊢
    exact h.flush s hroom
  | case2 column a b c rest ih =>
    rw [encoded, ← List.append_assoc] at hroom ⊢
    obtain ⟨t, hgroup, ht⟩ := exec_putGroup h hlive lines column [a, b, c] s (by
      simp only [List.length_append] at hroom ⊢
      omega)
    rw [← ht] at hroom ⊢
    obtain ⟨u, hrest, hu⟩ := ih t hroom
    refine ⟨u, ?_, hu⟩
    rw [encodeFrom, exec_bind, hgroup]
    exact hrest
  | case3 column rest hnil hlong =>
    have hencoded : encoded lines column rest = lineBreak lines column ++ encodeGroup rest := by
      rw [encoded.eq_def]
      split
      · exact absurd rfl hnil
      · exact absurd rfl (hlong _ _ _ _)
      · rfl
    rw [hencoded] at hroom ⊢
    obtain ⟨t, hgroup, ht⟩ := exec_putGroup h hlive lines column rest s hroom
    obtain ⟨u, hflush, hu, hsettled⟩ := h.flush t (by rwa [ht])
    refine ⟨u, ?_, by rw [hu, ht], hsettled⟩
    have hlast : encodeFrom output live lines column rest =
        (putGroup output live lines column rest >>= fun _ => output.flush) := by
      rw [encodeFrom.eq_def]
      split
      · exact absurd rfl hnil
      · exact absurd rfl (hlong _ _ _ _)
      · rfl
    rw [hlast, exec_bind, hgroup]
    exact hflush

/-- And the bytes of the characters. -/
theorem exec_decodeFrom {text : Bytes} {group : List Nat} {size : Nat} {ended : Bool} {bytes : Bytes}
    (hbytes : decoded group ended text = some bytes) (s : σ)
    (hroom : (content s ++ bytes).length ≤ room) :
    ∃ t, exec (decodeFrom output live group size ended text) s = (.ok (size + bytes.length), t) ∧
      content t = content s ++ bytes ∧ settled t := by
  induction text generalizing group size ended bytes s with
  | nil =>
    rw [decoded] at hbytes
    split at hbytes
    · next hgroup =>
      cases hbytes
      rw [List.append_nil] at hroom ⊢
      obtain ⟨t, hflush, ht⟩ := h.flush s hroom
      refine ⟨t, ?_, ht⟩
      rw [decodeFrom, if_neg (not_not.mpr hgroup), exec_bind, hflush]
      rfl
    · cases hbytes
  | cons byte rest ih =>
    rw [decoded] at hbytes
    rw [decodeFrom, exec_bind, exec_get]
    dsimp only
    rw [if_neg (by simp [hlive])]
    cases hvalue : valueOf byte with
    | whitespace =>
      rw [hvalue] at hbytes
      exact ih hbytes s hroom
    | invalid =>
      rw [hvalue] at hbytes
      cases hbytes
    | value n =>
      rw [hvalue] at hbytes
      dsimp only at hbytes ⊢
      split at hbytes
      · cases hbytes
      · next hended =>
        rw [if_neg hended]
        -- three sextets wait for a fourth; fewer, or more, for the next letter
        rcases group with _ | ⟨a, _ | ⟨b, _ | ⟨c, _ | ⟨d, more⟩⟩⟩⟩
        · exact ih hbytes s hroom
        · exact ih hbytes s hroom
        · exact ih hbytes s hroom
        · dsimp only at hbytes ⊢
          cases hgroup : decodeGroup a b c n with
          | none =>
            rw [hgroup] at hbytes
            cases hbytes
          | some first =>
            rw [hgroup] at hbytes
            obtain ⟨later, hlater, rfl⟩ := Option.map_eq_some_iff.mp hbytes
            rw [← List.append_assoc] at hroom
            obtain ⟨t, hput, ht⟩ := h.put s first (by
              rw [List.length_append] at hroom
              omega)
            rw [← ht] at hroom
            obtain ⟨u, hrest, hu, hsettled⟩ := ih hlater t hroom
            refine ⟨u, ?_, by rw [hu, ht, List.append_assoc], hsettled⟩
            rw [exec_bind, hput]
            dsimp only
            rw [hrest, List.length_append, Nat.add_assoc]
        · exact ih hbytes s hroom

end Written

/-- An output that writes nothing stays as it was; the decoder only tells how many bytes a
text holds, or that it holds none. -/
theorem exec_decodeFrom_nowhere {σ : Type} {live : σ → Bool} (text : Bytes) (group : List Nat)
    (size : Nat) (ended : Bool) {s : σ} (hlive : live s = true) :
    exec (decodeFrom nowhere live group size ended text) s =
      match decoded group ended text with
      | some bytes => (.ok (size + bytes.length), s)
      | none => (.error .invalid, s) := by
  induction text generalizing group size ended with
  | nil =>
    rw [decoded, decodeFrom]
    by_cases hgroup : group = []
    · rw [if_neg (not_not.mpr hgroup), if_pos hgroup]
      rfl
    · rw [if_pos hgroup, if_neg hgroup]
      rfl
  | cons byte rest ih =>
    rw [decodeFrom, exec_bind, exec_get]
    dsimp only
    rw [if_neg (by simp [hlive]), decoded]
    cases hvalue : valueOf byte with
    | whitespace => exact ih group size ended
    | invalid => rfl
    | value n =>
      dsimp only
      by_cases hended : ended = true
      · rw [if_pos hended, if_pos hended]
        rfl
      · rw [if_neg hended, if_neg hended]
        rcases group with _ | ⟨a, _ | ⟨b, _ | ⟨c, _ | ⟨d, group⟩⟩⟩⟩
        · exact ih [n] size ended
        · exact ih [a, n] size ended
        · exact ih [a, b, n] size ended
        · dsimp only
          cases hgroup : decodeGroup a b c n with
          | none => rfl
          | some first =>
            refine (ih [] (size + first.length) (first.length < 3)).trans ?_
            dsimp only
            cases decoded [] (first.length < 3) rest with
            | none => rfl
            | some later => simp [Nat.add_assoc]
        · exact ih (a :: b :: c :: d :: group ++ [n]) size ended

/-! ### Characters -/

/-- The alphabet's characters stand for their positions. -/
theorem valueOf_alphabet : ∀ n < 64, valueOf ((alphabet[n]?).getD 0) = .value n := by decide +kernel

theorem valueOf_equals : valueOf Ch.equals = .value padding := by decide

theorem valueOf_letter {c : UInt8} (h : c ∈ alphabet) : ∃ n, n < 64 ∧ valueOf c = .value n := by
  have hall : ∀ c ∈ alphabet, ∃ n, n < 64 ∧ valueOf c = .value n := by decide +kernel
  exact hall c h

/-- A character with a value is a letter, or the padding. -/
theorem letter_of_valueOf {c : UInt8} {n : Nat} (h : valueOf c = .value n) :
    (c = Ch.equals ∧ n = padding) ∨ (c ∈ alphabet ∧ n < 64) := by
  unfold valueOf at h
  split at h
  · cases h
  · split at h
    · next heq =>
      cases h
      exact .inl ⟨heq, rfl⟩
    · split at h
      · next i hi =>
        cases h
        rw [List.idxOf?_eq_some_iff] at hi
        obtain ⟨hlt, hc, -⟩ := hi
        exact .inr ⟨hc ▸ List.getElem_mem hlt, hlt⟩
      · cases h

theorem isWhitespace_iff (c : UInt8) : isWhitespace c = true ↔ valueOf c = .whitespace := by
  unfold valueOf
  constructor
  · intro h
    rw [if_pos h]
  · intro h
    by_contra hnot
    rw [if_neg hnot] at h
    split at h
    · cases h
    · split at h <;> cases h

/-! ### Round trip -/

/-- Four characters of full values are a group. -/
theorem decoded_group {a b c d : UInt8} {w x y z : Nat} (ha : valueOf a = .value w)
    (hb : valueOf b = .value x) (hc : valueOf c = .value y) (hd : valueOf d = .value z)
    (rest : Bytes) :
    decoded [] false (a :: b :: c :: d :: rest) =
      match decodeGroup w x y z with
      | none => none
      | some bytes => (decoded [] (bytes.length < 3) rest).map (bytes ++ ·) := by
  simp [decoded, ha, hb, hc, hd]

theorem decoded_lineBreak (lines : Bool) (column : Nat) (text : Bytes) :
    decoded [] false (lineBreak lines column ++ text) = decoded [] false text := by
  unfold lineBreak
  split
  · rfl
  · rfl

/-- The value of up to three bytes. -/
def valueOfGroup (bytes : Bytes) : Nat :=
  (bytes[0]?.getD 0).toNat * 65536 + (bytes[1]?.getD 0).toNat * 256 + (bytes[2]?.getD 0).toNat

theorem value_eq (bytes : Bytes) :
    [0, 1, 2].foldl (fun value i => value <<< 8 ||| (bytes[i]?.getD 0).toNat) 0 =
      valueOfGroup bytes := by
  have hor : ∀ m (x : UInt8), m <<< 8 ||| x.toNat = m * 256 + x.toNat := fun m x => by
    rw [← Nat.shiftLeft_add_eq_or_of_lt x.toNat_lt, Nat.shiftLeft_eq]
  simp only [List.foldl_cons, List.foldl_nil, hor, valueOfGroup]
  omega

theorem and_63 (n : Nat) : n &&& 63 = n % 64 := Nat.and_two_pow_sub_one_eq_mod n 6

theorem byte_eq {n : Nat} {a : UInt8} (h : n % 256 = a.toNat) : UInt8.ofNat n = a := by
  refine UInt8.toNat_inj.mp ?_
  rw [UInt8.toNat_ofNat', h]

/-- The bits of four values. -/
theorem packed_eq (w x y z : Nat) :
    [w, x, y, z].foldl (fun packed sextet => packed <<< 6 ||| (sextet &&& 63)) 0 =
      ((w % 64 * 64 + x % 64) * 64 + y % 64) * 64 + z % 64 := by
  have hor : ∀ m n, m <<< 6 ||| (n &&& 63) = m * 64 + n % 64 := fun m n => by
    rw [and_63, ← Nat.shiftLeft_add_eq_or_of_lt (Nat.mod_lt n (by decide)), Nat.shiftLeft_eq]
  simp [hor]

theorem packed_byte (packed shift : Nat) {a : UInt8} (h : packed / 2 ^ shift % 256 = a.toNat) :
    UInt8.ofNat (packed >>> shift) = a := byte_eq (by rw [Nat.shiftRight_eq_div_pow, h])

/-- The character of six bits of a value. -/
def letter (value shift : Nat) : UInt8 := (alphabet[value / 2 ^ shift % 64]?).getD 0

theorem valueOf_letter_bits (value shift : Nat) :
    valueOf (letter value shift) = .value (value / 2 ^ shift % 64) :=
  valueOf_alphabet _ (Nat.mod_lt _ (by decide))

/-- The characters of a group, by the bits of its value. -/
theorem encodeGroup_eq (bytes : Bytes) :
    encodeGroup bytes = [0, 1, 2, 3].map fun i =>
      if i ≤ bytes.length then letter (valueOfGroup bytes) ((4 - i - 1) * 6) else Ch.equals := by
  simp only [encodeGroup, value_eq, and_63, Nat.shiftRight_eq_div_pow, letter]

section Group
variable (a b c : UInt8)

theorem sextet_ne_padding (n : Nat) : n % 64 ≠ padding := Nat.ne_of_lt (Nat.mod_lt n (by decide))

theorem decodeGroup_three : decodeGroup (valueOfGroup [a, b, c] / 2 ^ 18 % 64)
    (valueOfGroup [a, b, c] / 2 ^ 12 % 64) (valueOfGroup [a, b, c] / 2 ^ 6 % 64)
    (valueOfGroup [a, b, c] / 2 ^ 0 % 64) = some [a, b, c] := by
  have ha := a.toNat_lt
  have hb := b.toNat_lt
  have hc := c.toNat_lt
  have hvalue : valueOfGroup [a, b, c] = a.toNat * 65536 + b.toNat * 256 + c.toNat := rfl
  unfold decodeGroup
  rw [if_neg (by simp [sextet_ne_padding]), if_neg (sextet_ne_padding _),
    if_neg (sextet_ne_padding _), packed_eq, hvalue]
  simp only [List.map_cons, List.map_nil, List.take_succ_cons, List.take_zero]
  rw [packed_byte (a := a), packed_byte (a := b), packed_byte (a := c)] <;>
    simp only [Nat.reduceMul, Nat.reduceSub, Nat.reducePow] <;> omega

theorem decodeGroup_two : decodeGroup (valueOfGroup [a, b] / 2 ^ 18 % 64)
    (valueOfGroup [a, b] / 2 ^ 12 % 64) (valueOfGroup [a, b] / 2 ^ 6 % 64) padding =
      some [a, b] := by
  have ha := a.toNat_lt
  have hb := b.toNat_lt
  have hvalue : valueOfGroup [a, b] = a.toNat * 65536 + b.toNat * 256 := by
    simp [valueOfGroup]
  unfold decodeGroup
  rw [if_neg (by simp [sextet_ne_padding]), if_neg (sextet_ne_padding _), if_pos rfl, packed_eq, hvalue]
  simp only [List.map_cons, List.map_nil, List.take_succ_cons, List.take_zero]
  rw [packed_byte (a := a), packed_byte (a := b)] <;>
    simp only [Nat.reduceMul, Nat.reduceSub, Nat.reducePow] <;> omega

theorem decodeGroup_one : decodeGroup (valueOfGroup [a] / 2 ^ 18 % 64)
    (valueOfGroup [a] / 2 ^ 12 % 64) padding padding = some [a] := by
  have ha := a.toNat_lt
  have hvalue : valueOfGroup [a] = a.toNat * 65536 := by
    simp [valueOfGroup]
  unfold decodeGroup
  rw [if_neg (by simp [sextet_ne_padding]), if_pos rfl, packed_eq, hvalue]
  simp only [List.map_cons, List.map_nil, List.take_succ_cons, List.take_zero]
  have hpadding : padding = 64 := rfl
  rw [packed_byte (a := a)]
  simp only [Nat.reduceMul, Nat.reduceSub, Nat.reducePow, hpadding]
  omega

theorem encodeGroup_three : encodeGroup [a, b, c] = [letter (valueOfGroup [a, b, c]) 18,
    letter (valueOfGroup [a, b, c]) 12, letter (valueOfGroup [a, b, c]) 6,
    letter (valueOfGroup [a, b, c]) 0] := by
  rw [encodeGroup_eq]
  simp

theorem encodeGroup_two : encodeGroup [a, b] = [letter (valueOfGroup [a, b]) 18,
    letter (valueOfGroup [a, b]) 12, letter (valueOfGroup [a, b]) 6, Ch.equals] := by
  rw [encodeGroup_eq]
  simp

theorem encodeGroup_one : encodeGroup [a] = [letter (valueOfGroup [a]) 18,
    letter (valueOfGroup [a]) 12, Ch.equals, Ch.equals] := by
  rw [encodeGroup_eq]
  simp

/-- A group of bytes decodes to them. -/
theorem decoded_three (rest : Bytes) :
    decoded [] false (encodeGroup [a, b, c] ++ rest) = (decoded [] false rest).map ([a, b, c] ++ ·) := by
  rw [encodeGroup_three]
  refine (decoded_group (valueOf_letter_bits _ _) (valueOf_letter_bits _ _) (valueOf_letter_bits _ _)
    (valueOf_letter_bits _ _) rest).trans ?_
  rw [decodeGroup_three]
  rfl

theorem decoded_two : decoded [] false (encodeGroup [a, b]) = some [a, b] := by
  rw [encodeGroup_two]
  refine (decoded_group (valueOf_letter_bits _ _) (valueOf_letter_bits _ _) (valueOf_letter_bits _ _)
    valueOf_equals []).trans ?_
  rw [decodeGroup_two]
  rfl

theorem decoded_one : decoded [] false (encodeGroup [a]) = some [a] := by
  rw [encodeGroup_one]
  refine (decoded_group (valueOf_letter_bits _ _) (valueOf_letter_bits _ _) valueOf_equals valueOf_equals []).trans ?_
  rw [decodeGroup_one]
  rfl

end Group

/-- Encoded bytes decode to themselves. -/
theorem decoded_encoded (lines : Bool) (column : Nat) (bytes : Bytes) :
    decoded [] false (encoded lines column bytes) = some bytes := by
  induction column, bytes using encoded.induct lines with
  | case1 column => rfl
  | case2 column a b c rest ih =>
    rw [encoded, List.append_assoc, decoded_lineBreak, decoded_three, ih]
    rfl
  | case3 column rest hnil hlong =>
    cases rest with
    | nil => exact absurd rfl hnil
    | cons a rest =>
      cases rest with
      | nil => rw [encoded, decoded_lineBreak, decoded_one] <;> simp
      | cons b rest =>
        cases rest with
        | nil => rw [encoded, decoded_lineBreak, decoded_two] <;> simp
        | cons c rest => exact absurd rfl (hlong _ _ _ _)

/-! ### How long a text is -/

theorem encodeGroup_length (bytes : Bytes) : (encodeGroup bytes).length = 4 := rfl

theorem lineBreak_length (lines : Bool) (column : Nat) :
    (lineBreak lines column).length = if lines ∧ column = lineWidth then 2 else 0 := by
  unfold lineBreak
  split <;> rfl

theorem nextColumn_line {lines : Bool} {column : Nat} (hcolumn : column % 4 = 0)
    (hline : lines = true → column ≤ lineWidth) :
    nextColumn lines column % 4 = 0 ∧ (lines = true → nextColumn lines column ≤ lineWidth) := by
  have hwidth : lineWidth = 76 := rfl
  unfold nextColumn
  split
  · exact ⟨rfl, fun _ => by omega⟩
  · next hnot =>
    refine ⟨by omega, fun hlines => ?_⟩
    have hne : column ≠ lineWidth := fun heq => hnot ⟨hlines, heq⟩
    have hle := hline hlines
    omega

/-- The groups left and the line breaks among them. -/
theorem encoded_length (lines : Bool) (column : Nat) (bytes : Bytes) (hcolumn : column % 4 = 0)
    (hline : lines = true → column ≤ lineWidth) :
    (encoded lines column bytes).length = (bytes.length + 2) / 3 * 4 +
      if lines ∧ bytes.length ≠ 0 then
        (column + (bytes.length + 2) / 3 * 4 - 1) / lineWidth * 2 else 0 := by
  induction column, bytes using encoded.induct lines with
  | case1 column => simp [encoded]
  | case2 column a b c rest ih =>
    obtain ⟨hnext, hnextLine⟩ := nextColumn_line hcolumn hline
    have hgroups : (rest.length + 1 + 1 + 1 + 2) / 3 = (rest.length + 2) / 3 + 1 := by omega
    rw [encoded, List.length_append, List.length_append, lineBreak_length, encodeGroup_length, ih hnext hnextLine]
    simp only [List.length_cons, hgroups, lineWidth] at hline ⊢
    cases lines with
    | false =>
      simp only [Bool.false_eq_true, false_and, if_false]
      omega
    | true =>
      have hcolumn76 := hline rfl
      by_cases hrest : rest.length = 0
      · simp only [hrest, true_and, ne_eq, not_true_eq_false, if_false]
        by_cases hfull : column = 76
        · simp [hfull]
        · simp [hfull]
          omega
      · by_cases hfull : column = 76
        · simp only [nextColumn, hfull, hrest, true_and, ne_eq, not_false_eq_true, if_true, Nat.succ_ne_zero]
          omega
        · simp only [nextColumn, hfull, hrest, true_and, ne_eq, not_false_eq_true, if_true, if_false, Nat.succ_ne_zero]
          omega
  | case3 column rest hnil hlong =>
    have hshort : rest.length = 1 ∨ rest.length = 2 := by
      cases rest with
      | nil => exact absurd rfl hnil
      | cons a rest =>
        cases rest with
        | nil => exact .inl rfl
        | cons b rest =>
          cases rest with
          | nil => exact .inr rfl
          | cons c rest => exact absurd rfl (hlong _ _ _ _)
    have hencoded : encoded lines column rest = lineBreak lines column ++ encodeGroup rest := by
      rw [encoded.eq_def]
      split
      · exact absurd rfl hnil
      · exact absurd rfl (hlong _ _ _ _)
      · rfl
    have hone : (rest.length + 2) / 3 = 1 := by omega
    rw [hencoded, List.length_append, lineBreak_length, encodeGroup_length, hone]
    cases lines with
    | false => simp
    | true =>
      have hcolumn76 := hline rfl
      have hne : rest.length ≠ 0 := by omega
      simp only [true_and, hne, ne_eq, not_false_eq_true, if_true, lineWidth] at hcolumn76 ⊢
      split <;> omega

/-- What `EncodedSize` tells is how long the text is; it raises where that is too long. -/
theorem encodedSize_eq (bytes : Bytes) (lines : Bool) (maximum : Nat) :
    encodedSize bytes.length lines maximum =
      if (encoded lines 0 bytes).length ≤ maximum then .ok (encoded lines 0 bytes).length
      else .error .textCapacity := by
  have hgroups : bytes.length / 3 + (if bytes.length % 3 ≠ 0 then 1 else 0) = (bytes.length + 2) / 3 := by
    split <;> omega
  have hbreaks : (if lines = true ∧ (bytes.length + 2) / 3 * 4 ≠ 0 then
      ((bytes.length + 2) / 3 * 4 - 1) / lineWidth else 0) * 2 =
        if lines = true ∧ bytes.length ≠ 0 then
          (0 + (bytes.length + 2) / 3 * 4 - 1) / lineWidth * 2 else 0 := by
    by_cases hnone : lines = true ∧ bytes.length ≠ 0
    · have hchars : lines = true ∧ (bytes.length + 2) / 3 * 4 ≠ 0 := ⟨hnone.1, by omega⟩
      rw [if_pos hnone, if_pos hchars, Nat.zero_add]
    · have hchars : ¬ (lines = true ∧ (bytes.length + 2) / 3 * 4 ≠ 0) := fun ⟨hl, hc⟩ =>
        hnone ⟨hl, by omega⟩
      rw [if_neg hnone, if_neg hchars]
  have hlength := encoded_length lines 0 bytes rfl fun _ => Nat.zero_le _
  rw [← hbreaks] at hlength
  unfold encodedSize
  dsimp only
  rw [hgroups, hlength]
  generalize (if lines = true ∧ (bytes.length + 2) / 3 * 4 ≠ 0 then
    ((bytes.length + 2) / 3 * 4 - 1) / lineWidth else 0) = breaks
  split
  · rw [if_neg (by omega)]
  · split
    · rw [if_neg (by omega)]
    · rw [if_pos (by omega)]

/-! ### What is accepted -/

/-- Complete groups of the alphabet, the last of which may be padded. -/
inductive Groups : Bytes → Prop
  | nil : Groups []
  | full {a b c d : UInt8} {rest : Bytes} : a ∈ alphabet → b ∈ alphabet → c ∈ alphabet →
    d ∈ alphabet → Groups rest → Groups (a :: b :: c :: d :: rest)
  | two {a b c : UInt8} : a ∈ alphabet → b ∈ alphabet → c ∈ alphabet →
    Groups [a, b, c, Ch.equals]
  | one {a b : UInt8} : a ∈ alphabet → b ∈ alphabet → Groups [a, b, Ch.equals, Ch.equals]

/-- A text without its white space. -/
def stripped (text : Bytes) : Bytes := text.filter fun c => !isWhitespace c

/-- White space is passed over. -/
theorem decoded_stripped (group : List Nat) (ended : Bool) (text : Bytes) :
    decoded group ended (stripped text) = decoded group ended text := by
  induction text generalizing group ended with
  | nil => rfl
  | cons byte rest ih =>
    by_cases hspace : isWhitespace byte = true
    · have hvalue := (isWhitespace_iff byte).mp hspace
      rw [stripped, List.filter_cons_of_neg (by simp [hspace]), decoded, hvalue]
      exact ih group ended
    · rw [stripped, List.filter_cons_of_pos (by simp [hspace]), decoded, decoded]
      cases hvalue : valueOf byte with
      | whitespace => exact absurd ((isWhitespace_iff byte).mpr hvalue) hspace
      | invalid => rfl
      | value n =>
        dsimp only
        split
        · rfl
        · split
          · split
            · rfl
            · exact congrArg _ (ih _ _)
          · exact ih _ _

/-- The values of a group that decodes, and how many bytes it holds. -/
theorem decodeGroup_some {w x y z : Nat} {bytes : Bytes} (h : decodeGroup w x y z = some bytes) :
    w ≠ padding ∧ x ≠ padding ∧
      ((y = padding ∧ z = padding ∧ bytes.length = 1) ∨ (y ≠ padding ∧ z = padding ∧ bytes.length = 2) ∨
        (y ≠ padding ∧ z ≠ padding ∧ bytes.length = 3)) := by
  unfold decodeGroup at h
  split at h
  · cases h
  · next hgroup =>
    push Not at hgroup
    obtain ⟨hw, hx, hyz⟩ := hgroup
    refine ⟨hw, hx, ?_⟩
    cases h
    by_cases hy : y = padding
    · exact .inl ⟨hy, hyz hy, by simp [hy]⟩
    · by_cases hz : z = padding
      · exact .inr (.inl ⟨hy, hz, by simp [hy, hz]⟩)
      · exact .inr (.inr ⟨hy, hz, by simp [hy, hz]⟩)

theorem decodeGroup_letters {w x : Nat} (hw : w < 64) (hx : x < 64) (y z : Nat)
    (hyz : y = padding → z = padding) : ∃ bytes, decodeGroup w x y z = some bytes := by
  have hpad : padding = 64 := rfl
  unfold decodeGroup
  rw [if_neg]
  · exact ⟨_, rfl⟩
  · rintro (h | h | ⟨hy, hz⟩)
    · omega
    · omega
    · exact hz (hyz hy)

/-- Groups decode. -/
theorem decoded_of_groups {text : Bytes} (h : Groups text) : ∃ bytes, decoded [] false text = some bytes := by
  have hpad : padding = 64 := rfl
  induction h with
  | nil => exact ⟨[], rfl⟩
  | full ha hb hc hd _ ih =>
    obtain ⟨w, hw, hvw⟩ := valueOf_letter ha
    obtain ⟨x, hx, hvx⟩ := valueOf_letter hb
    obtain ⟨y, hy, hvy⟩ := valueOf_letter hc
    obtain ⟨z, hz, hvz⟩ := valueOf_letter hd
    obtain ⟨bytes, hbytes⟩ := decodeGroup_letters hw hx y z (by omega)
    obtain ⟨later, hlater⟩ := ih
    have hthree : bytes.length = 3 := by
      have := decodeGroup_some hbytes
      omega
    rw [decoded_group hvw hvx hvy hvz, hbytes]
    exact ⟨bytes ++ later, by simp [hthree, hlater]⟩
  | two ha hb hc =>
    obtain ⟨w, hw, hvw⟩ := valueOf_letter ha
    obtain ⟨x, hx, hvx⟩ := valueOf_letter hb
    obtain ⟨y, hy, hvy⟩ := valueOf_letter hc
    obtain ⟨bytes, hbytes⟩ := decodeGroup_letters hw hx y padding fun _ => rfl
    rw [decoded_group hvw hvx hvy valueOf_equals, hbytes]
    exact ⟨bytes ++ [], rfl⟩
  | one ha hb =>
    obtain ⟨w, hw, hvw⟩ := valueOf_letter ha
    obtain ⟨x, hx, hvx⟩ := valueOf_letter hb
    obtain ⟨bytes, hbytes⟩ := decodeGroup_letters hw hx padding padding fun _ => rfl
    rw [decoded_group hvw hvx valueOf_equals valueOf_equals, hbytes]
    exact ⟨bytes ++ [], rfl⟩

/-- After a padded group only the end may come. -/
theorem decoded_ended {text : Bytes} (hspace : ∀ c ∈ text, isWhitespace c = false) {bytes : Bytes}
    (h : decoded [] true text = some bytes) : text = [] := by
  cases text with
  | nil => rfl
  | cons byte rest =>
    rw [decoded] at h
    cases hvalue : valueOf byte with
    | whitespace =>
      have := (isWhitespace_iff byte).mpr hvalue
      rw [hspace byte List.mem_cons_self] at this
      cases this
    | invalid | value n =>
      rw [hvalue] at h
      cases h

/-- The values of the characters of a text without white space that decodes. -/
theorem value_of_decoded {group : List Nat} {ended : Bool} {byte : UInt8} {rest bytes : Bytes}
    (hspace : isWhitespace byte = false) (h : decoded group ended (byte :: rest) = some bytes) :
    ∃ n, valueOf byte = .value n := by
  rw [decoded] at h
  cases hvalue : valueOf byte with
  | whitespace =>
    have := (isWhitespace_iff byte).mpr hvalue
    rw [hspace] at this
    cases this
  | invalid =>
    rw [hvalue] at h
    cases h
  | value n => exact ⟨n, rfl⟩

/-- What decodes is made of groups. -/
theorem groups_of_decoded : ∀ {text bytes : Bytes}, (∀ c ∈ text, isWhitespace c = false) →
    decoded [] false text = some bytes → Groups text
  | [], _, _, _ => .nil
  | [a], _, hspace, h => by
    obtain ⟨w, hw⟩ := value_of_decoded (hspace a (by simp)) h
    simp [decoded, hw] at h
  | [a, b], bytes, hspace, h => by
    obtain ⟨w, hw⟩ := value_of_decoded (hspace a (by simp)) h
    have h1 : decoded [w] false [b] = some bytes := by simpa [decoded, hw] using h
    obtain ⟨x, hx⟩ := value_of_decoded (hspace b (by simp)) h1
    simp [decoded, hw, hx] at h
  | [a, b, c], bytes, hspace, h => by
    obtain ⟨w, hw⟩ := value_of_decoded (hspace a (by simp)) h
    have h1 : decoded [w] false [b, c] = some bytes := by simpa [decoded, hw] using h
    obtain ⟨x, hx⟩ := value_of_decoded (hspace b (by simp)) h1
    have h2 : decoded [w, x] false [c] = some bytes := by simpa [decoded, hx] using h1
    obtain ⟨y, hy⟩ := value_of_decoded (hspace c (by simp)) h2
    simp [decoded, hw, hx, hy] at h
  | a :: b :: c :: d :: rest, bytes, hspace, h => by
    obtain ⟨w, hw⟩ := value_of_decoded (hspace a (by simp)) h
    have h1 : decoded [w] false (b :: c :: d :: rest) = some bytes := by simpa [decoded, hw] using h
    obtain ⟨x, hx⟩ := value_of_decoded (hspace b (by simp)) h1
    have h2 : decoded [w, x] false (c :: d :: rest) = some bytes := by simpa [decoded, hx] using h1
    obtain ⟨y, hy⟩ := value_of_decoded (hspace c (by simp)) h2
    have h3 : decoded [w, x, y] false (d :: rest) = some bytes := by simpa [decoded, hy] using h2
    obtain ⟨z, hz⟩ := value_of_decoded (hspace d (by simp)) h3
    rw [decoded_group hw hx hy hz] at h
    cases hgroup : decodeGroup w x y z with
    | none =>
      rw [hgroup] at h
      cases h
    | some first =>
      rw [hgroup] at h
      obtain ⟨later, hlater, -⟩ := Option.map_eq_some_iff.mp h
      have hrest : ∀ c ∈ rest, isWhitespace c = false := fun e he => hspace e (by simp [he])
      obtain ⟨hwne, hxne, hyz⟩ := decodeGroup_some hgroup
      have hpadding : padding = 64 := rfl
      have ha := (letter_of_valueOf hw).resolve_left fun hpad => hwne hpad.2
      have hb := (letter_of_valueOf hx).resolve_left fun hpad => hxne hpad.2
      rcases hyz with ⟨hypad, hzpad, hone⟩ | ⟨hyne, hzpad, htwo⟩ | ⟨hyne, hzne, hthree⟩
      · rw [hone] at hlater
        obtain rfl := decoded_ended hrest hlater
        have hc := (letter_of_valueOf hy).resolve_right fun hletter => by omega
        have hd := (letter_of_valueOf hz).resolve_right fun hletter => by omega
        rw [hc.1, hd.1]
        exact .one ha.1 hb.1
      · rw [htwo] at hlater
        obtain rfl := decoded_ended hrest hlater
        have hc := (letter_of_valueOf hy).resolve_left fun hpad => hyne hpad.2
        have hd := (letter_of_valueOf hz).resolve_right fun hletter => by omega
        rw [hd.1]
        exact .two ha.1 hb.1 hc.1
      · rw [hthree] at hlater
        have hc := (letter_of_valueOf hy).resolve_left fun hpad => hyne hpad.2
        have hd := (letter_of_valueOf hz).resolve_left fun hpad => hzne hpad.2
        exact .full ha.1 hb.1 hc.1 hd.1 (groups_of_decoded hrest hlater)

/-- **What is accepted**: the texts that without their white space are made of groups. -/
theorem decoded_iff (text : Bytes) :
    (∃ bytes, decoded [] false text = some bytes) ↔ Groups (stripped text) := by
  rw [← decoded_stripped]
  constructor
  · rintro ⟨bytes, h⟩
    exact groups_of_decoded (fun c hc => by simpa using (List.mem_filter.mp hc).2) h
  · exact decoded_of_groups

/-! ### The four functions -/

theorem encodeBase64_eq (maximum : Nat) (bytes : Bytes) (lines : Bool) :
    encodeBase64 maximum bytes lines =
      if (encoded lines 0 bytes).length ≤ maximum then .ok (encoded lines 0 bytes)
      else .error .textCapacity := by
  have hwrite : ∃ t, exec (encode toText (fun _ => true) lines bytes) [] = (.ok ⟨⟩, t) ∧
      t = [] ++ encoded lines 0 bytes ∧ True :=
    exec_encodeFrom (toText_appends _) (fun _ => rfl) lines 0 bytes [] (Nat.le_refl _)
  obtain ⟨t, hwrite, rfl, -⟩ := hwrite
  unfold encodeBase64
  rw [encodedSize_eq, hwrite]
  by_cases hfits : (encoded lines 0 bytes).length ≤ maximum
  · rw [if_pos hfits, if_pos hfits]
    rfl
  · rw [if_neg hfits, if_neg hfits]

theorem decodeBase64_eq (text : Bytes) :
    decodeBase64 text =
      match decoded [] false text with
      | some bytes => .ok bytes
      | none => .error .invalid := by
  have hcheck : exec (decode nowhere (fun _ => true) text) PUnit.unit =
      match decoded [] false text with
      | some bytes => (.ok (0 + bytes.length), PUnit.unit)
      | none => (.error .invalid, PUnit.unit) := exec_decodeFrom_nowhere text [] 0 false rfl
  unfold decodeBase64
  rw [hcheck]
  cases h : decoded [] false text with
  | none => rfl
  | some bytes =>
    have hwrite : ∃ t, exec (decode toText (fun _ => true) text) [] = (.ok (0 + bytes.length), t) ∧
        t = [] ++ bytes ∧ True :=
      exec_decodeFrom (toText_appends _) (fun _ => rfl) h [] (Nat.le_refl _)
    obtain ⟨t, hwrite, rfl, -⟩ := hwrite
    rw [hwrite]

@[simp] theorem Sink.content_fresh (stream : OutStream) :
    ({stream} : Sink).content = stream.bytes := List.append_nil _

/-- A sink over a stream that writes all it gets, settled at the end. -/
theorem exec_withSink {α : Type} {p : Procedure CodecError Sink α} {stream : OutStream}
    {bytes : Bytes} {a : α}
    (h : ∃ t, exec p {stream} = (.ok a, t) ∧ t.content = stream.bytes ++ bytes ∧ t.buffer = []) :
    ∃ t : OutStream, exec (withSink p) stream = (.ok ⟨⟩, t) ∧ t.bytes = stream.bytes ++ bytes := by
  obtain ⟨t, hexec, hcontent, hbuffer⟩ := h
  refine ⟨t.stream, ?_, by simpa [Sink.content, hbuffer] using hcontent⟩
  unfold withSink
  rw [exec_bind, exec_get]
  dsimp only
  rw [hexec]
  rfl

section Stream
variable {maximum : Nat} {stream : OutStream} {view : View} (hheld : view.Held stream)
include hheld

theorem live_of_held : view.live stream = true := by
  cases view with
  | owned bytes => rfl
  | borrowed start length writes => simpa [View.live] using hheld.2

/-- A view that the stream does not own shows the same bytes, whatever is written. -/
theorem own_shows : (own view stream).shows stream = view.shows stream ∧
    ((own view stream).shows stream ≠ [] → ∀ s, (own view stream).live s = true) := by
  unfold own
  by_cases hborrows : stream.borrows view = true
  · rw [if_pos hborrows]
    exact ⟨rfl, fun _ _ => rfl⟩
  · rw [if_neg hborrows]
    refine ⟨rfl, fun hne => ?_⟩
    cases view with
    | owned bytes => exact fun _ => rfl
    | borrowed start length writes =>
      refine absurd ?_ hne
      have hempty : length = 0 ∨ stream.bytes.length ≤ start := by
        simpa [OutStream.borrows, Classical.or_iff_not_imp_left] using hborrows
      have hinside := hheld.1
      have hzero : length = 0 := by omega
      simp [View.shows, hzero]

/-- The stream gets the text that the text overload returns. -/
theorem exec_encodeToStream (lines : Bool)
    (hroom : (stream.bytes ++ encoded lines 0 (view.shows stream)).length ≤ maximum) :
    ∃ t : OutStream, exec (encodeToStream maximum view lines) stream = (.ok ⟨⟩, t) ∧
      t.bytes = stream.bytes ++ encoded lines 0 (view.shows stream) := by
  obtain ⟨hshows, hlive⟩ := own_shows hheld
  unfold encodeToStream
  rw [exec_bind, exec_get]
  dsimp only
  rw [hshows]
  refine exec_withSink (a := PUnit.unit) ?_
  by_cases hnil : view.shows stream = []
  · rw [hnil]
    exact ⟨{stream}, rfl, by simp [encoded], rfl⟩
  · rw [← Sink.content_fresh] at hroom ⊢
    exact exec_encodeFrom (toStream_appends maximum) (fun s => hlive (by rwa [hshows]) s.stream)
      lines 0 _ {stream} hroom

/-- And the bytes that the text overload returns, or nothing where that raises. -/
theorem exec_decodeToStream :
    match decoded [] false (view.shows stream) with
    | none => exec (decodeToStream maximum view) stream = (.error .invalid, stream)
    | some bytes => (stream.bytes ++ bytes).length ≤ maximum →
        ∃ t : OutStream, exec (decodeToStream maximum view) stream = (.ok ⟨⟩, t) ∧
          t.bytes = stream.bytes ++ bytes := by
  obtain ⟨hshows, hlive⟩ := own_shows hheld
  have hcheck : exec (decode nowhere view.live (view.shows stream)) stream =
      match decoded [] false (view.shows stream) with
      | some bytes => (.ok (0 + bytes.length), stream)
      | none => (.error .invalid, stream) :=
    exec_decodeFrom_nowhere _ [] 0 false (live_of_held hheld)
  unfold decodeToStream
  rw [exec_bind, exec_get]
  dsimp only
  rw [exec_bind, hcheck, hshows]
  cases h : decoded [] false (view.shows stream) with
  | none => rfl
  | some bytes =>
    dsimp only
    intro hroom
    refine exec_withSink (a := 0 + bytes.length) ?_
    by_cases hnil : view.shows stream = []
    · rw [hnil] at h ⊢
      cases h
      exact ⟨{stream}, rfl, by simp, rfl⟩
    · rw [← Sink.content_fresh] at hroom ⊢
      exact exec_decodeFrom (toStream_appends maximum) (fun s => hlive (by rwa [hshows]) s.stream) h
        {stream} hroom

end Stream

/-! ### A faithful codec -/

theorem decodeBase64_ok_iff {text bytes : Bytes} :
    decodeBase64 text = .ok bytes ↔ decoded [] false text = some bytes := by
  rw [decodeBase64_eq]
  cases decoded [] false text <;> simp

/-- **Base64 is faithful**: what is encoded has the size that `EncodedSize` tells and decodes
to itself; a text is accepted exactly when it is made of groups; a stream gets the bytes
that the text overloads return, and nothing of a rejected text, whether the input lies in
its own bytes or not. -/
theorem base64_is_faithful (maximum : Nat) :
    (∀ bytes lines, ∃ text,
      encodeBase64 maximum bytes lines =
        (if text.length ≤ maximum then .ok text else .error .textCapacity) ∧
      encodedSize bytes.length lines maximum =
        (if text.length ≤ maximum then .ok text.length else .error .textCapacity) ∧
      decodeBase64 text = .ok bytes) ∧
    (∀ text, (∃ bytes, decodeBase64 text = .ok bytes) ↔ Groups (stripped text)) ∧
    (∀ (stream : OutStream) (view : View), view.Held stream →
      (∀ lines text, encodeBase64 maximum (view.shows stream) lines = .ok text →
        (stream.bytes ++ text).length ≤ maximum →
        ∃ t : OutStream, (encodeToStream maximum view lines).exec stream = (.ok ⟨⟩, t) ∧
          t.bytes = stream.bytes ++ text) ∧
      (∀ bytes, decodeBase64 (view.shows stream) = .ok bytes →
        (stream.bytes ++ bytes).length ≤ maximum →
        ∃ t : OutStream, (decodeToStream maximum view).exec stream = (.ok ⟨⟩, t) ∧
          t.bytes = stream.bytes ++ bytes) ∧
      ∀ e, decodeBase64 (view.shows stream) = .error e →
        (decodeToStream maximum view).exec stream = (.error e, stream)) := by
  refine ⟨fun bytes lines => ?_, fun text => ?_, fun stream view hheld => ⟨?_, ?_, ?_⟩⟩
  · exact ⟨encoded lines 0 bytes, encodeBase64_eq maximum bytes lines,
      encodedSize_eq bytes lines maximum, decodeBase64_ok_iff.mpr (decoded_encoded lines 0 bytes)⟩
  · rw [← decoded_iff]
    exact exists_congr fun bytes => decodeBase64_ok_iff
  · intro lines text htext hroom
    rw [encodeBase64_eq] at htext
    split at htext
    · obtain rfl := Except.ok.inj htext
      exact exec_encodeToStream hheld lines hroom
    · cases htext
  · intro bytes hbytes hroom
    have hstream := @exec_decodeToStream maximum _ _ hheld
    rw [decodeBase64_ok_iff.mp hbytes] at hstream
    exact hstream hroom
  · intro e he
    have hstream := @exec_decodeToStream maximum _ _ hheld
    rw [decodeBase64_eq] at he
    cases h : decoded [] false (view.shows stream) with
    | some bytes =>
      rw [h] at he
      cases he
    | none =>
      rw [h] at he hstream
      cases he
      exact hstream

/-- A stream decodes the text that it holds, behind it. -/
theorem base64_is_faithful_aliased :
    ∃ t : OutStream, (decodeToStream 100 (.borrowed 0 8 0)).exec ⟨ascii "TWFuTQ==", 0⟩ = (.ok ⟨⟩, t) ∧
      t.bytes = ascii "TWFuTQ==ManM" :=
  ((base64_is_faithful 100).2.2 ⟨ascii "TWFuTQ==", 0⟩ (.borrowed 0 8 0) ⟨by decide, rfl⟩).2.1
    (ascii "ManM") (by decide +kernel) (by decide)

end Agiru.Codec.Base64
