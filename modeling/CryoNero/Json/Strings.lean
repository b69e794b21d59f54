import CryoNero.Core.Json

/-!
# Strings in JSON text

A string literal is a list of pieces: bytes that stand for themselves, escapes of one character, and escapes
of code points. The parser reads a literal piece by piece, and the text that is written for a string is a
literal of which every piece stands for one byte.

The escapes of a code point are refused for surrogates and from U+FFFE on. Below U+0080 a code point is one
byte, as it is in UTF-8; of the others the bytes come out last one first. A byte 0x7f is written as it is
and refused by the parser.
-/

namespace CryoNero

open Seria Store Words

namespace Common

/-- A piece of a string literal. -/
inductive Piece
  | raw (b : UInt8) (hcntrl : isCntrl b = false) (hquote : b ≠ jsonQuote) (hbackslash : b ≠ backslash)
  | plain (e b : UInt8) (h : plainEscape e = some b)
  | code (c₀ c₁ c₂ c₃ : UInt8) (v₀ v₁ v₂ v₃ : ℕ) (h₀ : fromHex c₀ = some v₀) (h₁ : fromHex c₁ = some v₁)
      (h₂ : fromHex c₂ = some v₂) (h₃ : fromHex c₃ = some v₃)

namespace Piece

def text : Piece → Bytes
  | raw b _ _ _ => [b]
  | plain e _ _ => [backslash, e]
  | code c₀ c₁ c₂ c₃ .. => [backslash, letter 'u', c₀, c₁, c₂, c₃]

/-- The code point of an escape that has one. -/
def codePoint : Piece → Option ℕ
  | code _ _ _ _ v₀ v₁ v₂ v₃ .. => some (v₀ * 4096 + v₁ * 256 + v₂ * 16 + v₃)
  | _ => none

/-- What the piece stands for: escaped code points in UTF-8. -/
def meaning : Piece → Bytes
  | raw b _ _ _ => [b]
  | plain _ b _ => [b]
  | code _ _ _ _ v₀ v₁ v₂ v₃ .. =>
    String.utf8EncodeChar (Char.ofNat (v₀ * 4096 + v₁ * 256 + v₂ * 16 + v₃))

/-- What the parser adds to the string. -/
def decoded : Piece → Bytes
  | raw b _ _ _ => [b]
  | plain _ b _ => [b]
  | code _ _ _ _ v₀ v₁ v₂ v₃ .. => codePointBytes (v₀ * 4096 + v₁ * 256 + v₂ * 16 + v₃)

/-- An escape of a surrogate, or of a code point from U+FFFE on. -/
def Refused (p : Piece) : Prop := ∃ cp ∈ p.codePoint, (0xd800 ≤ cp ∧ cp ≤ 0xdfff) ∨ 0xfffe ≤ cp

/-- Of a code point from U+0080 on, the bytes of UTF-8 come out last one first. -/
theorem decoded_eq_reverse {p : Piece} (h : ¬p.Refused) : p.decoded = p.meaning.reverse := by
  cases p with
  | raw => rfl
  | plain => rfl
  | code c₀ c₁ c₂ c₃ v₀ v₁ v₂ v₃ h₀ h₁ h₂ h₃ =>
    set cp := v₀ * 4096 + v₁ * 256 + v₂ * 16 + v₃ with hcp
    have hscalar : ¬((0xd800 ≤ cp ∧ cp ≤ 0xdfff) ∨ 0xfffe ≤ cp) := fun hrefused ↦ h ⟨cp, rfl, hrefused⟩
    have hvalid : cp.isValidChar := by
      rw [Nat.isValidChar]
      omega
    have hval : (Char.ofNat cp).val.toNat = cp := by
      rw [Char.ofNat, dif_pos hvalid]
      rfl
    -- The marks are above the bits of the code point.
    have hmark : ∀ i m n : ℕ, n < 2 ^ i → 2 ^ i * m ||| n = n + 2 ^ i * m := by
      intro i m n hn
      rw [← Nat.two_pow_add_eq_or_of_lt hn, Nat.add_comm]
    have hlow : ∀ n : ℕ, 0x80 ||| (n &&& 0x3f) = n % 0x40 + 0x80 := by
      intro n
      have hand : n &&& 0x3f = n % 0x40 := Nat.and_two_pow_sub_one_eq_mod n 6
      rw [hand]
      exact hmark 6 2 _ (Nat.mod_lt _ (by decide))
    have hdiv : cp >>> 6 = cp / 64 := Nat.shiftRight_eq_div_pow cp 6
    have hdiv₂ : (cp / 64) >>> 6 = cp / 4096 := by
      rw [Nat.shiftRight_eq_div_pow, Nat.div_div_eq_div_mul]
    show codePointBytes cp = (String.utf8EncodeChar (Char.ofNat cp)).reverse
    rw [codePointBytes, String.utf8EncodeChar]
    simp only [hval, hlow, hdiv, hdiv₂]
    by_cases h₁ : cp < 0x80
    · rw [if_pos h₁, if_pos (Nat.le_of_lt_succ h₁)]
      rfl
    rw [if_neg h₁, if_neg (fun hle ↦ h₁ (Nat.lt_succ_of_le hle))]
    by_cases h₂ : cp < 0x800
    · have hhigh : 0xc0 ||| cp / 64 = cp / 64 % 0x20 + 0xc0 := by
        rw [Nat.mod_eq_of_lt (show cp / 64 < 0x20 by omega)]
        exact hmark 5 6 _ (by omega)
      rw [if_pos h₂, if_pos (Nat.le_of_lt_succ h₂), hhigh]
      rfl
    · have hhigh : 0xe0 ||| cp / 4096 = cp / 4096 % 0x10 + 0xe0 := by
        rw [Nat.mod_eq_of_lt (show cp / 4096 < 0x10 by omega)]
        exact hmark 4 14 _ (by omega)
      rw [if_neg h₂, if_neg (fun hle ↦ h₂ (Nat.lt_succ_of_le hle)), if_pos (by omega), hhigh]
      rfl

/-- A piece that escapes no code point from U+0080 on. -/
def OneByte (p : Piece) : Prop := ∀ cp ∈ p.codePoint, cp < 0x80

private theorem OneByte.not_refused {p : Piece} (h : p.OneByte) : ¬p.Refused := by
  rintro ⟨cp, hcp, hrefused⟩
  have := h cp hcp
  omega

private theorem OneByte.decoded_eq {p : Piece} (h : p.OneByte) : p.decoded = p.meaning := by
  have hall : ∀ cp < 0x80, codePointBytes cp = String.utf8EncodeChar (Char.ofNat cp) := by decide
  cases p with
  | raw => rfl
  | plain => rfl
  | code => exact hall _ (h _ rfl)

end Piece

/-! ## Reading a literal -/

private theorem letter_u_ne : plainEscape (letter 'u') = none := by decide

private theorem readStringToken_raw {b : UInt8} (hcntrl : isCntrl b = false) (hquote : b ≠ jsonQuote)
    (hbackslash : b ≠ backslash) (rest : Bytes) :
    readStringToken (b :: rest) = (readStringToken rest).map fun q ↦ (b :: q.1, q.2) := by
  rw [readStringToken.eq_def]
  simp only [hcntrl, Bool.false_eq_true, if_false, if_neg hquote, if_neg hbackslash]
  rcases readStringToken rest with e | q <;> rfl

private theorem readStringToken_plain {e b : UInt8} (he : plainEscape e = some b) (rest : Bytes) :
    readStringToken (backslash :: e :: rest) = (readStringToken rest).map fun q ↦ (b :: q.1, q.2) := by
  have hcntrl : isCntrl backslash = false := by decide
  have hquote : backslash ≠ jsonQuote := by decide
  rw [readStringToken.eq_def]
  simp only [hcntrl, Bool.false_eq_true, if_false, if_neg hquote, if_true, he]
  rcases readStringToken rest with e | q <;> rfl

private theorem readStringToken_code (c₀ c₁ c₂ c₃ : UInt8) (rest : Bytes) :
    readStringToken (backslash :: letter 'u' :: c₀ :: c₁ :: c₂ :: c₃ :: rest) =
      readCodePoint c₀ c₁ c₂ c₃ >>= fun cp ↦
        (readStringToken rest).map fun q ↦ (codePointBytes cp ++ q.1, q.2) := by
  have hcntrl : isCntrl backslash = false := by decide
  have hquote : backslash ≠ jsonQuote := by decide
  rw [readStringToken.eq_def]
  simp only [hcntrl, Bool.false_eq_true, if_false, if_neg hquote, if_true, letter_u_ne]
  rcases readStringToken rest with e | q <;> rfl

private theorem readStringToken_piece {p : Piece} (hp : ¬p.Refused) (rest : Bytes) :
    readStringToken (p.text ++ rest) =
      (readStringToken rest).map fun q ↦ (p.decoded ++ q.1, q.2) := by
  cases p with
  | raw b hcntrl hquote hbackslash => exact readStringToken_raw hcntrl hquote hbackslash rest
  | plain e b he => exact readStringToken_plain he rest
  | code c₀ c₁ c₂ c₃ v₀ v₁ v₂ v₃ h₀ h₁ h₂ h₃ =>
    have hcode : readCodePoint c₀ c₁ c₂ c₃ = .ok (v₀ * 4096 + v₁ * 256 + v₂ * 16 + v₃) := by
      rw [readCodePoint, h₀, h₁, h₂, h₃]
      exact if_neg fun hrefused ↦ hp ⟨_, rfl, hrefused⟩
    apply (readStringToken_code c₀ c₁ c₂ c₃ rest).trans
    rw [hcode]
    rfl

private theorem readStringToken_pieces {ps : List Piece} (hps : ∀ p ∈ ps, ¬p.Refused) (rest : Bytes) :
    readStringToken (ps.flatMap Piece.text ++ rest) =
      (readStringToken rest).map fun q ↦ (ps.flatMap Piece.decoded ++ q.1, q.2) := by
  induction ps with
  | nil =>
    rw [List.flatMap_nil, List.nil_append]
    rcases readStringToken rest with e | q <;> rfl
  | cons p ps ih =>
    rw [List.forall_mem_cons] at hps
    rw [List.flatMap_cons, List.append_assoc, readStringToken_piece hps.1, ih hps.2]
    rcases readStringToken rest with e | q
    · rfl
    · simp only [Except.map, List.flatMap_cons, List.append_assoc]

private theorem readStringToken_quote (rest : Bytes) :
    readStringToken (jsonQuote :: rest) = .ok ([], rest) := by
  have hcntrl : isCntrl jsonQuote = false := by decide
  rw [readStringToken.eq_def]
  simp only [hcntrl, Bool.false_eq_true, if_false, if_true]

private theorem readStringToken_literal {ps : List Piece} (hps : ∀ p ∈ ps, ¬p.Refused) (tail : Bytes) :
    readStringToken (ps.flatMap Piece.text ++ jsonQuote :: tail) =
      .ok (ps.flatMap Piece.decoded, tail) := by
  rw [readStringToken_pieces hps, readStringToken_quote, Except.map, List.append_nil]

private theorem readStringToken_refused {ps : List Piece} (hps : ∀ p ∈ ps, ¬p.Refused) {p : Piece}
    (hp : p.Refused) (rest : Bytes) :
    ∃ digits, readStringToken (ps.flatMap Piece.text ++ (p.text ++ rest)) =
      .error (.surrogatePairs digits) := by
  rw [readStringToken_pieces hps]
  cases p with
  | raw =>
    obtain ⟨cp, hcp, -⟩ := hp
    cases hcp
  | plain =>
    obtain ⟨cp, hcp, -⟩ := hp
    cases hcp
  | code c₀ c₁ c₂ c₃ v₀ v₁ v₂ v₃ h₀ h₁ h₂ h₃ =>
    obtain ⟨cp, hcp, hrefused⟩ := hp
    obtain rfl := Option.some.inj hcp
    have hcode : readCodePoint c₀ c₁ c₂ c₃ = .error (.surrogatePairs [c₀, c₁, c₂, c₃]) := by
      rw [readCodePoint, h₀, h₁, h₂, h₃]
      exact if_pos hrefused
    have hread := readStringToken_code c₀ c₁ c₂ c₃ rest
    rw [hcode] at hread
    exact ⟨_, congrArg (Except.map _) hread⟩

/-! ## Writing a literal -/

private theorem fromHex_hexUpper {n : ℕ} (h : n < 16) : fromHex (hexUpper n) = some n := by
  have hall : ∀ n < 16, fromHex (hexUpper n) = some n := by decide
  exact hall n h

private theorem exists_piece {c : UInt8} (hc : c ≠ 0x7f) :
    ∃ p : Piece, p.text = escapeString [c] ∧ p.meaning = [c] ∧ p.OneByte := by
  rw [escapeString, List.flatMap_singleton]
  have honly : ∀ {p : Piece}, p.codePoint = none → p.OneByte := fun hnone cp hcp ↦ by
    rw [hnone] at hcp
    cases hcp
  by_cases hescaped : c = backslash ∨ c = jsonQuote
  · rw [if_pos hescaped]
    have hplain : plainEscape c = some c := by
      rcases hescaped with rfl | rfl <;> decide
    exact ⟨.plain c c hplain, rfl, rfl, honly rfl⟩
  rw [if_neg hescaped]
  obtain ⟨hbackslash, hquote⟩ := not_or.mp hescaped
  by_cases hlow : c < 0x20
  swap
  · rw [if_neg hlow]
    have hcntrl : isCntrl c = false := by
      rw [isCntrl, decide_eq_false_iff_not, not_or]
      exact ⟨hlow, hc⟩
    exact ⟨.raw c hcntrl hquote hbackslash, rfl, rfl, honly rfl⟩
  rw [if_pos hlow, escapeTable]
  -- The five control characters that have an escape of their own, and the others.
  split_ifs with h₈ h₉ h₁₀ h₁₂ h₁₃
  · exact ⟨.plain (letter 'b') c (by rw [h₈]; decide), rfl, rfl, honly rfl⟩
  · exact ⟨.plain (letter 't') c (by rw [h₉]; decide), rfl, rfl, honly rfl⟩
  · exact ⟨.plain (letter 'n') c (by rw [h₁₀]; decide), rfl, rfl, honly rfl⟩
  · exact ⟨.plain (letter 'f') c (by rw [h₁₂]; decide), rfl, rfl, honly rfl⟩
  · exact ⟨.plain (letter 'r') c (by rw [h₁₃]; decide), rfl, rfl, honly rfl⟩
  · have hlt : c.toNat < 0x20 := UInt8.lt_iff_toNat_lt.mp hlow
    have hzero : fromHex 0x30 = some 0 := by decide
    have hcp : 0 * 4096 + 0 * 256 + c.toNat / 16 * 16 + c.toNat % 16 = c.toNat := by omega
    refine ⟨.code 0x30 0x30 _ _ 0 0 _ _ hzero hzero (fromHex_hexUpper (by omega))
      (fromHex_hexUpper (by omega)), rfl, ?_, ?_⟩
    · have hall : ∀ n < 0x20, String.utf8EncodeChar (Char.ofNat n) = [UInt8.ofNat n] := by decide
      rw [Piece.meaning, hcp, hall _ hlt, UInt8.ofNat_toNat]
    · intro cp hmem
      obtain rfl := Option.some.inj hmem
      omega

private theorem exists_pieces {value : Bytes} (h : 0x7f ∉ value) :
    ∃ ps : List Piece, ps.flatMap Piece.text = escapeString value ∧ ps.flatMap Piece.meaning = value ∧
      ∀ p ∈ ps, p.OneByte := by
  induction value with
  | nil => exact ⟨[], rfl, rfl, by simp⟩
  | cons c value ih =>
    rw [List.mem_cons, not_or] at h
    obtain ⟨p, htext, hmeaning, hp⟩ := exists_piece (Ne.symm h.1)
    obtain ⟨ps, htexts, hmeanings, hps⟩ := ih h.2
    refine ⟨p :: ps, ?_, ?_, List.forall_mem_cons.mpr ⟨hp, hps⟩⟩
    · rw [List.flatMap_cons, htext, htexts, escapeString, escapeString, escapeString, List.flatMap_singleton]
      rfl
    · rw [List.flatMap_cons, hmeaning, hmeanings]
      rfl

/-! ## Values that are strings -/

variable (real : RealText)

private theorem readNonWsChar_quote (rest : Bytes) :
    readNonWsChar (jsonQuote :: rest) = .ok (jsonQuote, rest) := by
  rw [readNonWsChar, List.dropWhile_cons_of_neg (by decide)]

private theorem fromString_quote (text : Bytes) :
    JsonValue.fromString real (jsonQuote :: text) = do
      let p ← readStringToken text
      ensure (p.2.dropWhile isSpace = []) .extraCharacters
      return .string p.1 := by
  have hturns : 3 * ((jsonQuote :: text).length + 1) = (3 * text.length + 5) + 1 := by
    rw [List.length_cons]
    omega
  have hvalue : readValue real (3 * text.length + 5 + 1) (jsonQuote :: text) =
      (readStringToken text).map fun p ↦ (.string p.1, p.2) := by
    rw [readValue, readNonWsChar_quote, ok_bind]
    dsimp only
    rw [if_neg (by decide), if_neg (by decide), if_neg (by decide), if_neg (by decide), if_neg (by decide),
      if_neg (by decide), if_pos rfl]
    rcases readStringToken text with e | p <;> rfl
  rw [JsonValue.fromString, hturns, hvalue]
  rcases readStringToken text with e | p <;> rfl

private theorem fromString_literal {ps : List Piece} (hps : ∀ p ∈ ps, ¬p.Refused) :
    JsonValue.fromString real (jsonQuote :: (ps.flatMap Piece.text ++ [jsonQuote])) =
      .ok (.string (ps.flatMap Piece.decoded)) := by
  rw [fromString_quote, readStringToken_literal hps]
  rfl

/-- **Strings in JSON.** A string without the byte 0x7f comes back from the text that is written for it. A
literal that escapes no code point from U+0080 on is read as what it stands for, and a literal with an
escape of a surrogate, or of a code point from U+FFFE on, is refused. -/
theorem fromString_toText :
    (∀ value : Bytes, 0x7f ∉ value →
      JsonValue.fromString real (JsonValue.toText real (.string value)) = .ok (.string value)) ∧
    (∀ ps : List Piece, (∀ p ∈ ps, p.OneByte) →
      JsonValue.fromString real (jsonQuote :: (ps.flatMap Piece.text ++ [jsonQuote])) =
        .ok (.string (ps.flatMap Piece.meaning))) ∧
    ∀ ps : List Piece, (∃ p ∈ ps, p.Refused) →
      ∃ digits, JsonValue.fromString real (jsonQuote :: (ps.flatMap Piece.text ++ [jsonQuote])) =
        .error (.surrogatePairs digits) := by
  have hliteral : ∀ ps : List Piece, (∀ p ∈ ps, p.OneByte) →
      JsonValue.fromString real (jsonQuote :: (ps.flatMap Piece.text ++ [jsonQuote])) =
        .ok (.string (ps.flatMap Piece.meaning)) := by
    intro ps hps
    have hsame : ps.flatMap Piece.decoded = ps.flatMap Piece.meaning :=
      List.flatMap_congr fun p hp ↦ (hps p hp).decoded_eq
    rw [fromString_literal real fun p hp ↦ (hps p hp).not_refused, hsame]
  refine ⟨?_, hliteral, ?_⟩
  · intro value hvalue
    obtain ⟨ps, htext, hmeaning, hps⟩ := exists_pieces hvalue
    have hread := hliteral ps hps
    rwa [htext, hmeaning] at hread
  · rintro ps ⟨p, hp, hrefused⟩
    classical
    -- The pieces in front of the first that is refused are read.
    obtain ⟨first, hfirst⟩ : ∃ first, ps.find? (fun p ↦ decide p.Refused) = some first :=
      Option.isSome_iff_exists.mp (List.find?_isSome.mpr ⟨p, hp, decide_eq_true hrefused⟩)
    obtain ⟨hrefused, before, after, rfl, hbefore⟩ := List.find?_eq_some_iff_append.mp hfirst
    have hbefore : ∀ q ∈ before, ¬q.Refused := fun q hq ↦ by simpa using hbefore q hq
    have hrefused : first.Refused := of_decide_eq_true hrefused
    obtain ⟨digits, hread⟩ := readStringToken_refused hbefore hrefused
      (after.flatMap Piece.text ++ [jsonQuote])
    refine ⟨digits, ?_⟩
    rw [fromString_quote, List.flatMap_append, List.flatMap_cons, List.append_assoc, List.append_assoc, hread]
    rfl

/-! ## Samples -/

/-- A library that keeps the text of a number. -/
def RealText.plain : RealText where
  Value := Bytes
  ofText := id
  toText := id

/-- The escape of the digit two. -/
def escapedTwo : Piece := .code 0x30 0x30 0x33 0x32 0 0 3 2 rfl rfl rfl rfl

/-- The escape of the first half of a pair of surrogates. -/
def surrogate : Piece := .code 0x64 0x38 0x33 0x64 13 8 3 13 rfl rfl rfl rfl

/-- A string with a quote, a line feed and a byte from 0x80 on, a literal with an escape, and a literal
that is refused. -/
theorem fromString_toText_sample :
    JsonValue.fromString .plain (JsonValue.toText .plain (.string [0x22, 10, 0xff])) =
        .ok (.string [0x22, 10, 0xff]) ∧
      JsonValue.fromString .plain
        (jsonQuote :: ([escapedTwo].flatMap Piece.text ++ [jsonQuote])) = .ok (.string [0x32]) ∧
      ∃ digits, JsonValue.fromString .plain
        (jsonQuote :: ([surrogate].flatMap Piece.text ++ [jsonQuote])) =
          .error (.surrogatePairs digits) := by
  obtain ⟨hwritten, hliteral, hrefused⟩ := fromString_toText .plain
  refine ⟨hwritten _ (by decide), hliteral [escapedTwo] ?_, hrefused [surrogate] ?_⟩
  · rintro p hp cp hcp
    obtain rfl := List.mem_singleton.mp hp
    obtain rfl := Option.some.inj hcp
    decide
  · exact ⟨surrogate, List.mem_singleton_self _, _, rfl, by decide⟩

/-- The byte 0x7f is refused after it was written, an escape of U+00E9 is read with its bytes in the wrong
order, and the escape of a surrogate is refused. -/
theorem fromString_toText_not :
    JsonValue.fromString .plain (JsonValue.toText .plain (.string [0x7f])) = .error .controlCharacter ∧
      JsonValue.fromString .plain [0x22, 0x5c, 0x75, 0x30, 0x30, 0x65, 0x39, 0x22] =
        .ok (.string [0xa9, 0xc3]) ∧ String.utf8EncodeChar (Char.ofNat 0xe9) = [0xc3, 0xa9] ∧
      JsonValue.fromString .plain [0x22, 0x5c, 0x75, 0x66, 0x66, 0x66, 0x65, 0x22] =
        .error (.surrogatePairs [0x66, 0x66, 0x66, 0x65]) ∧
      String.utf8EncodeChar (Char.ofNat 0xfffe) = [0xef, 0xbf, 0xbe] := by
  refine ⟨by rfl, by rfl, by decide, by rfl, by decide⟩

end Common

end CryoNero
