import CryoNero.Core.AmountText

/-!
# Amounts and their texts

A text that is read consists of digits, with a point if there is a fraction, and the amount is exactly what
these say (`parseAmount_eq_some`). The text of an amount has the digits of its whole coins and two digits of
its fraction. The eight places that follow are written as if they were six: as a number of thousands,
with at least three digits, and the rest. With five digits these are the right places; with fewer, all of
them move to the left (`formatAmount_cases`).
-/

namespace CryoNero

open Seria Words

/-! ## Characters -/

private theorem isDigit_iff {c : UInt8} : isDigit c = true ↔ 0x30 ≤ c.toNat ∧ c.toNat < 0x3a := by
  rw [isDigit, decide_eq_true_iff, UInt8.le_iff_toNat_le, UInt8.le_iff_toNat_le]
  exact and_congr_right fun _ ↦ Nat.lt_succ_iff.symm

theorem isDigit_of_mem_decimal {n : ℕ} {c : UInt8} (h : c ∈ decimal n) : isDigit c = true :=
  isDigit_iff.mpr (digit_of_mem_decimal h)

private theorem ne_of_isDigit {c : UInt8} (h : isDigit c = true) : c ≠ quote ∧ c ≠ point := by
  constructor
  · rintro rfl
    cases h
  · rintro rfl
    cases h

theorem not_isSpace_of_isDigit {c : UInt8} (h : isDigit c = true) : isSpace c = false := by
  rw [isDigit_iff] at h
  rw [isSpace, decide_eq_false_iff_not, UInt8.le_iff_toNat_le, UInt8.le_iff_toNat_le,
    ← UInt8.toNat_inj]
  rintro (heq | ⟨-, hle⟩)
  · rw [heq] at h
    exact absurd h (by decide)
  · have hle : c.toNat ≤ 13 := hle
    omega

private theorem trim_eq_self {s : Bytes} (h : ∀ c ∈ s, isSpace c = false) : trim s = s := by
  have hfront : s.dropWhile isSpace = s :=
    List.dropWhile_eq_self_iff.mpr fun hlength ↦ by simp [h _ (List.getElem_mem hlength)]
  rw [trim, hfront]
  exact List.rdropWhile_eq_self_iff.mpr fun hne ↦ by simp [h _ (List.getLast_mem hne)]

/-- A text without blanks around it and without quotes. -/
def plain (str : Bytes) : Bytes := (trim str).filter (· ≠ quote)

theorem filter_digits {s : Bytes} (h : ∀ c ∈ s, isDigit c = true) : s.filter (· ≠ quote) = s :=
  List.filter_eq_self.mpr fun c hc ↦ decide_eq_true (ne_of_isDigit (h c hc)).1

/-! ## Reading -/

/-- A text of digits, with a point before the digits of the fraction. -/
def IsDecimal (text whole fraction : Bytes) : Prop :=
  (∀ c ∈ whole ++ fraction, isDigit c = true) ∧ whole ++ fraction ≠ [] ∧
    (text = whole ++ point :: fraction ∨ text = whole ∧ fraction = [])

private theorem dropZeros_cases (n : UInt64) (start fraction : Bytes) :
    ∃ rest k, fraction = rest ++ List.replicate k zero ∧ (fraction.length ≤ n.toNat → k = 0) ∧
      dropZeros n fraction.length (start ++ fraction) = (rest.length, start ++ rest) := by
  induction fraction using List.reverseRecOn with
  | nil => exact ⟨[], 0, rfl, fun _ ↦ rfl, rfl⟩
  | append_singleton fraction c ih =>
    obtain ⟨rest, k, hfraction, -, hdrop⟩ := ih
    have hlast : (start ++ (fraction ++ [c])).getLast? = some c := by
      rw [← List.append_assoc, List.getLast?_concat]
    have hfront : (start ++ (fraction ++ [c])).dropLast = start ++ fraction := by
      rw [← List.append_assoc, List.dropLast_concat]
    rw [List.length_append, List.length_singleton, dropZeros, hlast, hfront]
    by_cases hgoes : n.toNat < fraction.length + 1 ∧ some c = some zero
    · obtain rfl := Option.some.inj hgoes.2
      refine ⟨rest, k + 1, ?_, fun hle ↦ absurd hle (Nat.not_le.mpr hgoes.1), ?_⟩
      · rw [List.replicate_succ', ← List.append_assoc, ← hfraction]
      · rw [if_pos hgoes, hdrop]
    · refine ⟨fraction ++ [c], 0, (List.append_nil _).symm, fun _ ↦ rfl, ?_⟩
      rw [if_neg hgoes, List.length_append, List.length_singleton]

private theorem readAmount_eq_some {digits : Bytes} {a : Amount} :
    readAmount digits = some a ↔ ofDecimal digits = a.toNat := by
  rw [readAmount]
  split_ifs with hlt
  · rw [Option.some.injEq, ← UInt64.toNat_inj, UInt64.toNat_ofNat', Nat.mod_eq_of_lt hlt]
  · refine iff_of_false nofun fun heq ↦ hlt ?_
    rw [heq]
    exact a.toNat_lt

private theorem readDigits_eq_some {n size : ℕ} {digits : Bytes} {a : Amount} :
    (if digits = [] then none
      else if ¬digits.all isDigit = true then none
      else if size < n then readAmount (digits ++ List.replicate (n - size) zero)
      else readAmount digits) = some a ↔
      digits ≠ [] ∧ (∀ c ∈ digits, isDigit c = true) ∧ ofDecimal digits * 10 ^ (n - size) = a.toNat := by
  rw [← List.all_eq_true]
  by_cases hempty : digits = []
  · rw [if_pos hempty]
    exact iff_of_false nofun fun h ↦ h.1 hempty
  rw [if_neg hempty]
  by_cases hdigits : digits.all isDigit = true
  · rw [if_neg (not_not.mpr hdigits), and_iff_right hempty, and_iff_right hdigits,
      ← ofDecimal_append_zeros]
    split_ifs with hsize
    · exact readAmount_eq_some
    · rw [Nat.sub_eq_zero_of_le (Nat.le_of_not_lt hsize), List.replicate_zero, List.append_nil]
      exact readAmount_eq_some
  · rw [if_pos hdigits]
    exact iff_of_false nofun fun h ↦ hdigits h.2.1

private theorem idxOf?_append_cons {whole : Bytes} (h : point ∉ whole) (fraction : Bytes) :
    (whole ++ point :: fraction).idxOf? point = some whole.length := by
  refine List.idxOf?_eq_some_iff.mpr ⟨by simp, ?_, fun j hj heq ↦ h ?_⟩
  · rw [List.getElem_append_right (le_refl _)]
    simp
  · rw [List.getElem_append_left hj] at heq
    exact heq ▸ List.getElem_mem hj

private theorem parseAmount_of_point {n : UInt64} {str whole fraction : Bytes} (hnot : point ∉ whole)
    (htext : plain str = whole ++ point :: fraction) :
    ∃ rest k, fraction = rest ++ List.replicate k zero ∧ (fraction.length ≤ n.toNat → k = 0) ∧
      ∀ a, parseAmount n str = some a ↔ rest.length ≤ n.toNat ∧ whole ++ rest ≠ [] ∧
        (∀ c ∈ whole ++ rest, isDigit c = true) ∧
        ofDecimal (whole ++ rest) * 10 ^ (n.toNat - rest.length) = a.toNat := by
  obtain ⟨rest, k, hfraction, hk, hdrop⟩ := dropZeros_cases n (whole ++ [point]) fraction
  simp only [List.append_assoc, List.singleton_append] at hdrop
  refine ⟨rest, k, hfraction, hk, fun a ↦ ?_⟩
  have hsize : (whole ++ point :: fraction).length - whole.length - 1 = fraction.length := by
    rw [List.length_append, List.length_cons]
    omega
  have herase : (whole ++ point :: rest).eraseIdx whole.length = whole ++ rest := by
    rw [List.eraseIdx_append_of_length_le (le_refl _), Nat.sub_self]
    rfl
  rw [parseAmount, ← plain, htext, idxOf?_append_cons hnot]
  dsimp only
  rw [hsize, hdrop]
  dsimp only
  rw [herase]
  by_cases hlong : n.toNat < rest.length
  · rw [if_pos hlong]
    exact iff_of_false nofun fun h ↦ absurd h.1 (Nat.not_le.mpr hlong)
  · rw [if_neg hlong, and_iff_right (Nat.le_of_not_lt hlong)]
    exact readDigits_eq_some

private theorem parseAmount_of_not_point {n : UInt64} {str : Bytes} {a : Amount}
    (hnot : point ∉ plain str) :
    parseAmount n str = some a ↔ plain str ≠ [] ∧ (∀ c ∈ plain str, isDigit c = true) ∧
      ofDecimal (plain str) * 10 ^ n.toNat = a.toNat := by
  rw [parseAmount, ← plain, List.idxOf?_eq_none_iff.mpr hnot]
  exact readDigits_eq_some

/-- **Spec of the reader.** Nothing is dropped but quotes, blanks and zeros that do not count. -/
private theorem parseAmount_eq_some {n : UInt64} {str : Bytes} {a : Amount}
    (h : parseAmount n str = some a) :
    ∃ whole fraction, IsDecimal (plain str) whole fraction ∧
      a.toNat * 10 ^ fraction.length = ofDecimal (whole ++ fraction) * 10 ^ n.toNat := by
  by_cases hpoint : point ∈ plain str
  · obtain ⟨whole, fraction, htext, hnot⟩ := List.eq_append_cons_of_mem hpoint
    obtain ⟨rest, k, rfl, -, hiff⟩ := parseAmount_of_point hnot htext
    obtain ⟨hle, hempty, hdigits, hvalue⟩ := (hiff a).mp h
    refine ⟨whole, rest ++ List.replicate k zero, ⟨?_, ?_, .inl htext⟩, ?_⟩
    · rw [← List.append_assoc, List.forall_mem_append]
      exact ⟨hdigits, fun c hc ↦ (List.eq_of_mem_replicate hc) ▸ rfl⟩
    · rw [← List.append_assoc]
      exact List.append_ne_nil_of_left_ne_nil hempty _
    · rw [← hvalue, ← List.append_assoc, zero, ofDecimal_append_zeros, List.length_append,
        List.length_replicate, Nat.mul_assoc, ← pow_add, Nat.mul_assoc, ← pow_add]
      congr 2
      omega
  · obtain ⟨hempty, hdigits, hvalue⟩ := (parseAmount_of_not_point hpoint).mp h
    refine ⟨plain str, [], ⟨?_, ?_, .inr ⟨rfl, rfl⟩⟩, ?_⟩
    · rwa [List.append_nil]
    · rwa [List.append_nil]
    · rw [List.length_nil, pow_zero, Nat.mul_one, List.append_nil, hvalue]

private theorem parseAmount_iff {n : UInt64} {str whole fraction : Bytes} {a : Amount}
    (h : IsDecimal (plain str) whole fraction) (hlength : fraction.length ≤ n.toNat) :
    parseAmount n str = some a ↔
      ofDecimal (whole ++ fraction) * 10 ^ (n.toNat - fraction.length) = a.toNat := by
  obtain ⟨hdigits, hempty, htext⟩ := h
  have hnot (s : Bytes) (hs : ∀ c ∈ s, isDigit c = true) : point ∉ s := fun hmem ↦
    (ne_of_isDigit (hs point hmem)).2 rfl
  rcases htext with htext | ⟨htext, rfl⟩
  · obtain ⟨rest, k, hfraction, hk, hiff⟩ :=
      parseAmount_of_point (hnot whole (List.forall_mem_append.mp hdigits).1) htext
    rw [hk hlength, List.replicate_zero, List.append_nil] at hfraction
    subst hfraction
    rw [hiff, and_iff_right hlength, and_iff_right hempty, and_iff_right hdigits]
  · rw [List.append_nil, ← htext] at hdigits hempty
    rw [parseAmount_of_not_point (hnot _ hdigits), and_iff_right hempty, and_iff_right hdigits,
      List.append_nil, ← htext]
    rfl

/-! ## Writing -/

theorem isDigit_of_mem_ffw {am : Amount} {digs : ℕ} {c : UInt8} (h : c ∈ ffw am digs) :
    isDigit c = true := by
  rw [ffw] at h
  split_ifs at h
  · rcases List.mem_append.mp h with h | h
    · rw [List.eq_of_mem_replicate h]
      rfl
    · exact isDigit_of_mem_decimal h
  · exact isDigit_of_mem_decimal h

theorem ofDecimal_ffw (am : Amount) (digs : ℕ) : ofDecimal (ffw am digs) = am.toNat := by
  rw [ffw]
  split_ifs
  · rw [zero, ofDecimal_zeros_append, ofDecimal_decimal]
  · exact ofDecimal_decimal _

theorem length_ffw_le_iff (am : Amount) {digs k : ℕ} (hk : 0 < k) (hdigs : digs ≤ k) :
    (ffw am digs).length ≤ k ↔ am.toNat < 10 ^ k := by
  rw [← length_decimal_le_iff hk, ffw]
  split_ifs with hshort
  · rw [List.length_append, List.length_replicate]
    omega
  · exact Iff.rfl

private theorem le_length_ffw (am : Amount) (digs : ℕ) : digs ≤ (ffw am digs).length := by
  rw [ffw]
  split_ifs with hshort
  · rw [List.length_append, List.length_replicate]
    omega
  · exact Nat.le_of_not_lt hshort

theorem length_ffw {am : Amount} {digs : ℕ} (hdigs : 0 < digs) (ham : am.toNat < 10 ^ digs) :
    (ffw am digs).length = digs :=
  le_antisymm ((length_ffw_le_iff am hdigs (le_refl _)).mpr ham) (le_length_ffw am digs)

private theorem formatWhole_spec (ia : Amount) (result : Bytes) :
    ∃ whole, (∀ c ∈ whole, isDigit c = true) ∧ whole ≠ [] ∧ ofDecimal whole = ia.toNat ∧
      (formatWhole ia result).filter (· ≠ quote) = whole ++ result.filter (· ≠ quote) ∧
      ((∀ c ∈ result, isSpace c = false) → ∀ c ∈ formatWhole ia result, isSpace c = false) := by
  induction ia, result using formatWhole.induct with
  | case1 ia result hle ih =>
    obtain ⟨whole, hdigits, hempty, hvalue, hfilter, hspace⟩ := ih
    have hgroup (c : UInt8) (hc : c ∈ ffw (ia % 1000) 3) : isDigit c = true := isDigit_of_mem_ffw hc
    have hmod : (ia % 1000).toNat = ia.toNat % 1000 := UInt64.toNat_mod _ _
    have hlength : (ffw (ia % 1000) 3).length = 3 :=
      length_ffw (by omega) (by rw [hmod]; exact Nat.mod_lt _ (by omega))
    rw [formatWhole, if_pos hle]
    refine ⟨whole ++ ffw (ia % 1000) 3, List.forall_mem_append.mpr ⟨hdigits, hgroup⟩,
      List.append_ne_nil_of_left_ne_nil hempty _, ?_, ?_, fun hresult ↦ hspace ?_⟩
    · rw [ofDecimal_append, hvalue, ofDecimal_ffw, hlength, hmod, UInt64.toNat_div]
      exact Nat.div_add_mod' ia.toNat 1000
    · rw [hfilter, List.cons_append, List.filter_cons_of_neg (by decide), List.filter_append,
        filter_digits hgroup, List.append_assoc]
    · rw [List.cons_append, List.forall_mem_cons, List.forall_mem_append]
      exact ⟨rfl, fun c hc ↦ not_isSpace_of_isDigit (hgroup c hc), hresult⟩
  | case2 ia result hlt =>
    have hdigits (c : UInt8) (hc : c ∈ decimal ia.toNat) : isDigit c = true := isDigit_of_mem_decimal hc
    rw [formatWhole, if_neg hlt]
    refine ⟨decimal ia.toNat, hdigits, decimal_ne_nil _, ofDecimal_decimal _, ?_, fun hresult ↦ ?_⟩
    · rw [List.filter_append, filter_digits hdigits]
    · rw [List.forall_mem_append]
      exact ⟨fun c hc ↦ not_isSpace_of_isDigit (hdigits c hc), hresult⟩

private theorem isDecimal_formatWhole (ia : Amount) {tail fraction : Bytes}
    (hspace : ∀ c ∈ tail, isSpace c = false) (hfilter : tail.filter (· ≠ quote) = point :: fraction)
    (hdigits : ∀ c ∈ fraction, isDigit c = true) :
    ∃ whole, IsDecimal (plain (formatWhole ia [] ++ tail)) whole fraction ∧ ofDecimal whole = ia.toNat := by
  obtain ⟨whole, hwhole, hempty, hvalue, htext, hnone⟩ := formatWhole_spec ia []
  refine ⟨whole, ⟨List.forall_mem_append.mpr ⟨hwhole, hdigits⟩,
    List.append_ne_nil_of_left_ne_nil hempty _, .inl ?_⟩, hvalue⟩
  rw [plain, trim_eq_self (List.forall_mem_append.mpr ⟨hnone nofun, hspace⟩), List.filter_append, htext,
    hfilter, List.filter_nil, List.append_nil]

private theorem length_thousands {q : Amount} (hq : q.toNat < 10 ^ 5) :
    3 ≤ (ffw q 3).length ∧ (ffw q 3).length ≤ 5 ∧ ((ffw q 3).length = 5 ↔ 10 ^ 4 ≤ q.toNat) := by
  have hle := (length_ffw_le_iff q (by omega : 0 < 5) (by omega : 3 ≤ 5)).mpr hq
  have hle' := length_ffw_le_iff q (by omega : 0 < 4) (by omega : 3 ≤ 4)
  exact ⟨le_length_ffw q 3, hle, by omega⟩

private theorem thousands_iff {c q w : ℕ} (hw : 3 ≤ w) (hw' : w ≤ 5) (hpos : 0 < q) :
    (c * 10 ^ w + q) * 10 ^ (10 - (2 + w)) = c * 10 ^ 8 + q * 1000 ↔ w = 5 := by
  interval_cases w <;> omega

private theorem thousands_rest_iff {c q r w : ℕ} (hw : 3 ≤ w) (hw' : w ≤ 5) (hpos : 0 < r) :
    (c * 10 ^ (w + 3) + (q * 10 ^ 3 + r)) * 10 ^ (10 - (2 + (w + 3))) = c * 10 ^ 8 + (q * 1000 + r) ↔
      w = 5 := by
  interval_cases w <;> omega

/-- The groups of a fraction `fa` of a coin that has `cent` for its hundredth part. -/
def formatFraction (fa cent : Amount) : Bytes :=
  if fa = 0 then []
  else point :: ffw (fa / cent) 2 ++
    if fa % cent = 0 then []
    else quote :: ffw (fa % cent / 1000) 3 ++
      if fa % cent % 1000 = 0 then [] else quote :: ffw (fa % cent % 1000) 3

private theorem formatAmount_eq {n : UInt64} {coin cent : Amount}
    (hcoin : decimalPlaces[n.toNat]? = some coin)
    (hcent : decimalPlaces[(n - 2).toNat]? = some cent) (a : Amount) :
    formatAmount n a = some (formatWhole (a / coin) [] ++ formatFraction (a - a / coin * coin) cent) := by
  rw [formatAmount, hcoin, Option.bind_eq_bind, Option.bind_some, formatFraction, hcent]
  dsimp only
  generalize a - a / coin * coin = fa
  by_cases hzero : fa = 0
  · subst hzero
    rw [if_neg (not_not.mpr rfl), if_pos rfl, List.append_nil]
    rfl
  rw [if_pos hzero, if_neg hzero, Option.bind_eq_bind, Option.bind_some, Option.pure_def,
    Option.bind_some]
  dsimp only
  by_cases hzero' : fa % cent = 0
  · rw [if_neg (not_not.mpr hzero'), if_pos hzero', List.append_nil]
    dsimp only
    rw [if_neg (not_not.mpr hzero')]
    rfl
  rw [if_pos hzero', if_neg hzero']
  dsimp only
  by_cases hzero'' : fa % cent % 1000 = 0
  · rw [if_neg (not_not.mpr hzero''), if_pos hzero'', List.append_nil, List.append_assoc]
    rfl
  · rw [if_pos hzero'', if_neg hzero'', List.append_assoc, List.append_assoc]
    rfl

/-- The digits of a fraction. -/
def fractionDigits (fa cent : Amount) : Bytes :=
  ffw (fa / cent) 2 ++
    if fa % cent = 0 then []
    else ffw (fa % cent / 1000) 3 ++ if fa % cent % 1000 = 0 then [] else ffw (fa % cent % 1000) 3

private theorem isDigit_of_mem_fractionDigits (fa cent : Amount) :
    ∀ c ∈ fractionDigits fa cent, isDigit c = true := by
  have hdigits (x : Amount) (digs : ℕ) : ∀ c ∈ ffw x digs, isDigit c = true :=
    fun c hc ↦ isDigit_of_mem_ffw hc
  rw [fractionDigits, List.forall_mem_append]
  refine ⟨hdigits _ _, ?_⟩
  split_ifs
  · exact nofun
  · rw [List.append_nil]
    exact hdigits _ _
  · exact List.forall_mem_append.mpr ⟨hdigits _ _, hdigits _ _⟩

theorem filter_cons_quote (x : Amount) (rest : Bytes) :
    (quote :: ffw x 3 ++ rest).filter (· ≠ quote) = ffw x 3 ++ rest.filter (· ≠ quote) := by
  rw [List.cons_append, List.filter_cons_of_neg (by decide), List.filter_append,
    filter_digits fun c hc ↦ isDigit_of_mem_ffw hc]

private theorem filter_formatFraction {fa : Amount} (h : fa ≠ 0) (cent : Amount) :
    (formatFraction fa cent).filter (· ≠ quote) = point :: fractionDigits fa cent := by
  rw [formatFraction, if_neg h, fractionDigits, List.cons_append, List.filter_cons_of_pos (by decide),
    List.filter_append, filter_digits fun c hc ↦ isDigit_of_mem_ffw hc]
  split_ifs
  · rfl
  · rw [filter_cons_quote]
    rfl
  · rw [filter_cons_quote, ← List.append_nil (quote :: ffw _ _), filter_cons_quote, List.filter_nil,
      List.append_nil]

private theorem isSpace_of_mem_formatFraction {fa : Amount} (h : fa ≠ 0) (cent : Amount) :
    ∀ c ∈ formatFraction fa cent, isSpace c = false := by
  intro c hc
  by_cases hquote : c = quote
  · rw [hquote]
    rfl
  have hmem : c ∈ (formatFraction fa cent).filter (· ≠ quote) :=
    List.mem_filter.mpr ⟨hc, decide_eq_true hquote⟩
  rw [filter_formatFraction h] at hmem
  rcases List.mem_cons.mp hmem with rfl | hmem
  · rfl
  · exact not_isSpace_of_isDigit (isDigit_of_mem_fractionDigits fa cent c hmem)

/-- **Spec of the fraction.** Its digits are right exactly if the last eight places are zero, or large
enough to fill them. -/
private theorem fractionDigits_spec {fa : Amount} (hfa : fa.toNat < 10 ^ 10) :
    (fractionDigits fa 100000000).length ≤ 10 ∧
      (ofDecimal (fractionDigits fa 100000000) * 10 ^ (10 - (fractionDigits fa 100000000).length) =
          fa.toNat ↔
        fa.toNat % 10 ^ 8 = 0 ∨ 10 ^ 7 ≤ fa.toNat % 10 ^ 8) := by
  have height : (100000000 : UInt64).toNat = 10 ^ 8 := by decide
  have hthousand : (1000 : UInt64).toNat = 1000 := by decide
  have hc : (fa / 100000000).toNat = fa.toNat / 10 ^ 8 := by rw [UInt64.toNat_div, height]
  have hrest : (fa % 100000000).toNat = fa.toNat % 10 ^ 8 := by rw [UInt64.toNat_mod, height]
  have hq : (fa % 100000000 / 1000).toNat = fa.toNat % 10 ^ 8 / 1000 := by
    rw [UInt64.toNat_div, hrest, hthousand]
  have hr : (fa % 100000000 % 1000).toNat = fa.toNat % 10 ^ 8 % 1000 := by
    rw [UInt64.toNat_mod, hrest, hthousand]
  have hcents : (ffw (fa / 100000000) 2).length = 2 := length_ffw (by omega) (by rw [hc]; omega)
  have hsplit := Nat.div_add_mod' fa.toNat (10 ^ 8)
  rw [fractionDigits]
  by_cases hzero : fa % 100000000 = 0
  · rw [if_pos hzero, List.append_nil, hcents, ofDecimal_ffw, hc]
    rw [hzero, UInt64.toNat_zero] at hrest
    have hmod : fa.toNat % 10 ^ 8 = 0 := hrest.symm
    have hvalue : fa.toNat / 10 ^ 8 * 10 ^ 8 = fa.toNat :=
      Nat.div_mul_cancel (Nat.dvd_of_mod_eq_zero hmod)
    exact ⟨by omega, iff_of_true hvalue (.inl hmod)⟩
  rw [if_neg hzero]
  have hpos : fa.toNat % 10 ^ 8 ≠ 0 := fun h ↦ hzero (UInt64.toNat_inj.mp (hrest.trans h))
  obtain ⟨hw, hw', hfull⟩ := length_thousands (q := fa % 100000000 / 1000) (by rw [hq]; omega)
  have hwell : (ffw (fa % 100000000 / 1000) 3).length = 5 ↔
      fa.toNat % 10 ^ 8 = 0 ∨ 10 ^ 7 ≤ fa.toNat % 10 ^ 8 := by
    rw [hfull, hq]
    omega
  rw [← hwell]
  set w := (ffw (fa % 100000000 / 1000) 3).length with hlength
  by_cases hzero' : fa % 100000000 % 1000 = 0
  · rw [hzero', UInt64.toNat_zero] at hr
    have hiff := thousands_iff (c := fa.toNat / 10 ^ 8) (q := fa.toNat % 10 ^ 8 / 1000) hw hw' (by omega)
    have hsum : fa.toNat / 10 ^ 8 * 10 ^ 8 + fa.toNat % 10 ^ 8 / 1000 * 1000 = fa.toNat := by omega
    rw [if_pos hzero', List.append_nil, List.length_append, hcents, ofDecimal_append, ofDecimal_ffw,
      ofDecimal_ffw, hc, hq, ← hlength]
    rw [hsum] at hiff
    exact ⟨by omega, hiff⟩
  · have hlast : (ffw (fa % 100000000 % 1000) 3).length = 3 :=
      length_ffw (by omega) (by rw [hr]; omega)
    have hr' : fa.toNat % 10 ^ 8 % 1000 ≠ 0 := fun h ↦ hzero' (UInt64.toNat_inj.mp (hr.trans h))
    have hiff := thousands_rest_iff (c := fa.toNat / 10 ^ 8) (q := fa.toNat % 10 ^ 8 / 1000) hw hw'
      (Nat.pos_of_ne_zero hr')
    have hsum : fa.toNat / 10 ^ 8 * 10 ^ 8 +
        (fa.toNat % 10 ^ 8 / 1000 * 1000 + fa.toNat % 10 ^ 8 % 1000) = fa.toNat := by omega
    rw [if_neg hzero', List.length_append, List.length_append, hcents, hlast, ofDecimal_append,
      ofDecimal_append, ofDecimal_ffw, ofDecimal_ffw, ofDecimal_ffw, List.length_append, hlast, hc, hq, hr,
      ← hlength]
    rw [hsum] at hiff
    exact ⟨by omega, hiff⟩

/-- **Spec of the writer.** -/
private theorem formatAmount_cases (a : Amount) :
    ∃ s whole fraction, formatAmount cryptonoteDisplayDecimalPoint a = some s ∧
      IsDecimal (plain s) whole fraction ∧ fraction.length ≤ 10 ∧
      ofDecimal whole = a.toNat / 10 ^ 10 ∧
      (ofDecimal fraction * 10 ^ (10 - fraction.length) = a.toNat % 10 ^ 10 ↔
        a.toNat % 10 ^ 8 = 0 ∨ 10 ^ 7 ≤ a.toNat % 10 ^ 8) := by
  have hcoin : decimalPlaces[cryptonoteDisplayDecimalPoint.toNat]? = some 10000000000 := by decide
  have hcent : decimalPlaces[(cryptonoteDisplayDecimalPoint - 2).toNat]? = some 100000000 := by decide
  have hten : (10000000000 : UInt64).toNat = 10 ^ 10 := by decide
  have hia : (a / 10000000000).toNat = a.toNat / 10 ^ 10 := by rw [UInt64.toNat_div, hten]
  have hdiv := Nat.div_add_mod' a.toNat (10 ^ 10)
  have hfa : (a - a / 10000000000 * 10000000000).toNat = a.toNat % 10 ^ 10 := by
    have hlt := a.toNat_lt
    have hmul : (a / 10000000000 * 10000000000).toNat = a.toNat / 10 ^ 10 * 10 ^ 10 := by
      rw [UInt64.toNat_mul, hia, hten, Nat.mod_eq_of_lt (by omega)]
    rw [UInt64.toNat_sub_of_le _ _ (UInt64.le_iff_toNat_le.mpr (by omega)), hmul]
    omega
  have hmod : a.toNat % 10 ^ 10 % 10 ^ 8 = a.toNat % 10 ^ 8 := Nat.mod_mod_of_dvd _ ⟨100, by norm_num⟩
  have hformat := formatAmount_eq hcoin hcent a
  set ia := a / 10000000000
  set fa := a - ia * 10000000000
  by_cases hzero : fa = 0
  · obtain ⟨whole, hwhole, hempty, hvalue, htext, hnone⟩ := formatWhole_spec ia []
    rw [formatFraction, if_pos hzero, List.append_nil] at hformat
    rw [hzero, UInt64.toNat_zero] at hfa
    refine ⟨_, whole, [], hformat, ⟨?_, ?_, .inr ⟨?_, rfl⟩⟩, Nat.zero_le _, hvalue.trans hia, ?_⟩
    · rwa [List.append_nil]
    · rwa [List.append_nil]
    · rw [plain, trim_eq_self (hnone nofun), htext, List.filter_nil, List.append_nil]
    · rw [← hmod, ← hfa]
      exact iff_of_true (Nat.zero_mul _) (.inl (Nat.zero_mod _))
  · obtain ⟨whole, htext, hvalue⟩ := isDecimal_formatWhole ia (isSpace_of_mem_formatFraction hzero 100000000)
      (filter_formatFraction hzero 100000000) (isDigit_of_mem_fractionDigits fa 100000000)
    obtain ⟨hlength, hiff⟩ := fractionDigits_spec (hfa.trans_lt (Nat.mod_lt _ (by omega)))
    rw [hfa, hmod] at hiff
    exact ⟨_, whole, _, hformat, htext, hlength, hvalue.trans hia, hiff⟩

/-! ## Round trips -/

/-- What a text of digits stands for. -/
def decimalValue (whole fraction : Bytes) : ℚ :=
  ofDecimal whole + ofDecimal fraction / 10 ^ fraction.length

/-- **Amounts and their texts.** The text of an amount is read as that amount exactly if its last eight
decimal places are zero or at least a tenth of a hundredth of a coin. Whatever is read, with any number of
places, is exactly what the text says. -/
theorem parseAmount_formatAmount (a : Amount) :
    ((∃ s, formatAmount cryptonoteDisplayDecimalPoint a = some s ∧
        parseAmount cryptonoteDisplayDecimalPoint s = some a) ↔
      a.toNat % 10 ^ 8 = 0 ∨ 10 ^ 7 ≤ a.toNat % 10 ^ 8) ∧
    ∀ (d : UInt64) (str : Bytes) (a : Amount), parseAmount d str = some a →
      ∃ whole fraction, IsDecimal (plain str) whole fraction ∧
        (a.toNat : ℚ) = decimalValue whole fraction * 10 ^ d.toNat := by
  refine ⟨?_, fun d str a h ↦ ?_⟩
  · obtain ⟨s, whole, fraction, hformat, htext, hlength, hwhole, hiff⟩ := formatAmount_cases a
    have hparse := parseAmount_iff (n := cryptonoteDisplayDecimalPoint) (a := a) htext hlength
    have hplaces : cryptonoteDisplayDecimalPoint.toNat = 10 := by decide
    have hpow : 10 ^ fraction.length * 10 ^ (10 - fraction.length) = 10 ^ 10 := by
      rw [← pow_add, Nat.add_sub_cancel' hlength]
    have hdiv := Nat.div_add_mod' a.toNat (10 ^ 10)
    rw [hplaces, ofDecimal_append, Nat.add_mul, Nat.mul_assoc, hpow, hwhole] at hparse
    rw [← hiff]
    constructor
    · rintro ⟨s', hs', hread⟩
      obtain rfl := Option.some.inj (hformat.symm.trans hs')
      have hvalue := hparse.mp hread
      omega
    · intro hvalue
      exact ⟨s, hformat, hparse.mpr (by omega)⟩
  · obtain ⟨whole, fraction, htext, hvalue⟩ := parseAmount_eq_some h
    refine ⟨whole, fraction, htext, ?_⟩
    rw [ofDecimal_append] at hvalue
    have hcast := congrArg (Nat.cast (R := ℚ)) hvalue
    push_cast at hcast
    rw [decimalValue]
    field_simp
    exact hcast

/-- The smallest amount is written with two zeros too few. -/
theorem parseAmount_formatAmount_one :
    ¬∀ a : Amount, ∃ s, formatAmount cryptonoteDisplayDecimalPoint a = some s ∧
      parseAmount cryptonoteDisplayDecimalPoint s = some a := by
  intro hall
  obtain ⟨s, hformat, hparse⟩ := hall 1
  have hs : formatAmount cryptonoteDisplayDecimalPoint 1 = some (ascii "0.00'000'001") := by decide +kernel
  obtain rfl := Option.some.inj (hs.symm.trans hformat)
  have hread : parseAmount cryptonoteDisplayDecimalPoint (ascii "0.00'000'001") = some 100 := by
    decide +kernel
  exact absurd (hread.symm.trans hparse) (by decide)

end CryoNero
