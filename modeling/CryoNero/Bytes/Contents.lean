import CryoNero.Core.BinaryArray

/-!
# An array of bytes is a list of bytes

The contents of an array are the bytes of its block that count. Every operation does to them what its name
says, and copies only inside blocks, with two exceptions. An array that has room inserts in place: it moves
what comes after the place before it looks at the source, so that a source in the array itself that begins
after the place has been moved away. And sizes are words: near the end of their range the size of a new
block wraps around.
-/

namespace CryoNero

open Seria Store

namespace BinaryArrayImpl

/-! ## What the operations are for -/

/-- The bytes of a source, for an array with the given contents. -/
def Source.bytes (l : Bytes) : Source → Bytes
  | .other bytes _ => bytes
  | .own be en => (l.drop be).take (en - be)

/-- What a call does to a list of bytes. What `resize` adds without a byte to fill with may be anything. -/
def Call.Gives (l l' : Bytes) : Call → Prop
  | .insert _ pos source => l' = l.take pos ++ (source.bytes l ++ l.drop pos)
  | .insertFill _ pos add va => l' = l.take pos ++ (List.replicate add.toNat va ++ l.drop pos)
  | .append _ source => l' = l ++ source.bytes l
  | .appendFill _ add va => l' = l ++ List.replicate add.toNat va
  | .assign _ source => l' = source.bytes l
  | .resize _ si => ∃ more, l' = l.take si.toNat ++ more ∧ l'.length = si.toNat
  | .resizeFill _ si va => l' = l.take si.toNat ++ List.replicate (si.toNat - l.length) va
  | .reserve _ _ => l' = l
  | .pushBack _ va => l' = l ++ [va]

/-! ## Arrays and their contents -/

variable (s : BinaryArrayImpl)

/-- The bytes that count. -/
def contents : Bytes := s.data.take s.size.toNat

/-- Not more bytes count than there are in the block. -/
structure Valid : Prop where
  size_le : s.size.toNat ≤ s.reserved.toNat
  block : s.data.length = s.reserved.toNat

/-- What a constructor gives. -/
structure Constructed : Prop where
  full : s.size = s.reserved
  block : s.data.length = s.reserved.toNat

/-- There is room for some more bytes, or a size with room to spare for a new block. -/
def Room (add : ℕ) : Prop := s.size.toNat + add ≤ s.reserved.toNat ∨ (s.size.toNat + add + 32) * 3 < 2 ^ 64

/-- A source in the array itself is one in its contents. -/
def Source.Within : Source → Prop
  | .other _ _ => True
  | .own be en => be ≤ en ∧ en ≤ s.size.toNat

/-- The source has been moved away when it is copied. -/
def Source.Overtaken (pos : ℕ) : Source → Prop
  | .other _ _ => False
  | .own be en => pos < be ∧ be < en ∧ s.size.toNat + (en - be) ≤ s.reserved.toNat

/-- A call that neither exception is about. -/
def Proper : Call → Prop
  | .insert _ pos source => source.Within s ∧ s.Room source.size ∧ ¬source.Overtaken s pos
  | .insertFill _ _ add _ => s.Room add.toNat
  | .append _ source => source.Within s ∧ s.Room source.size
  | .appendFill _ add _ => s.Room add.toNat
  | .assign _ source => source.Within s
  | .resize _ _ => True
  | .resizeFill _ _ _ => True
  | .reserve _ _ => True
  | .pushBack _ _ => s.Room 1

/-- A call may be refused: its place lies after the end, or there is no memory to be had. -/
def Refusable : Call → Prop
  | .insert new pos _ => s.size.toNat < pos ∨ ∃ n, new n = none
  | .insertFill new pos _ _ => s.size.toNat < pos ∨ ∃ n, new n = none
  | .append new _ => ∃ n, new n = none
  | .appendFill new _ _ => ∃ n, new n = none
  | .assign new _ => ∃ n, new n = none
  | .resize new _ => ∃ n, new n = none
  | .resizeFill new _ _ => ∃ n, new n = none
  | .reserve new _ => ∃ n, new n = none
  | .pushBack new _ => ∃ n, new n = none

/-- A call is answered with an exception, without an effect, if it may be refused, or has its effect. -/
def Answers (call : Call) : Except Failure BinaryArrayImpl → Prop
  | .ok s' => s'.Valid ∧ call.Gives s.contents s'.contents
  | .error e => e = .refused ∧ s.Refusable call

variable {s}

theorem Valid.split (h : s.Valid) : ∃ spare, s.data = s.contents ++ spare ∧
    s.contents.length = s.size.toNat ∧ s.size.toNat + spare.length = s.reserved.toNat := by
  obtain ⟨hsize, hblock⟩ := h
  refine ⟨s.data.drop s.size.toNat, (List.take_append_drop _ _).symm, ?_, ?_⟩
  · rw [contents, List.length_take, hblock, Nat.min_eq_left hsize]
  · rw [List.length_drop, hblock]
    omega

theorem contents_of_append {l spare : Bytes} {size reserved : UInt64} (h : l.length = size.toNat) :
    contents ⟨l ++ spare, size, reserved⟩ = l := by
  rw [contents, ← h, List.take_left]

theorem valid_of_append {l spare : Bytes} {size reserved : UInt64} (h : l.length = size.toNat)
    (hlength : (l ++ spare).length = reserved.toNat) : Valid ⟨l ++ spare, size, reserved⟩ := by
  refine ⟨?_, hlength⟩
  rw [List.length_append] at hlength
  dsimp only
  omega

theorem goodMemmove_append (out room tail pre xs post : Bytes) (h : room.length = xs.length) :
    goodMemmove (out ++ (room ++ tail)) out.length (pre ++ (xs ++ post), pre.length) xs.length =
      .ok (out ++ (xs ++ tail)) := by
  rw [goodMemmove]
  by_cases hzero : xs.length = 0
  · rw [if_pos hzero, List.length_eq_zero_iff.mp hzero, List.length_eq_zero_iff.mp (h.trans hzero)]
  · rw [if_neg hzero, copyFrom_append, ok_bind, copyTo_append _ _ _ _ h]

theorem memset_append (out room tail : Bytes) (va : UInt8) :
    memset (out ++ (room ++ tail)) out.length va room.length =
      .ok (out ++ (List.replicate room.length va ++ tail)) := by
  rw [memset, copyTo_append _ _ _ _ List.length_replicate.symm]

theorem exists_split {l : Bytes} {i : ℕ} (h : i ≤ l.length) : ∃ a b, l = a ++ b ∧ a.length = i :=
  ⟨l.take i, l.drop i, (List.take_append_drop i l).symm, List.length_take_of_le h⟩

private theorem Source.exists_place {source : Source} (h : source.Within s) (hs : s.Valid) :
    ∃ pre post, source.place s.data = (pre ++ (source.bytes s.contents ++ post), pre.length) ∧
      (source.bytes s.contents).length = source.size := by
  obtain ⟨spare, hdata, hlength, -⟩ := hs.split
  cases source with
  | other bytes hlt => exact ⟨[], [], by rw [List.append_nil]; rfl, rfl⟩
  | own be en =>
    obtain ⟨hbe, hen⟩ := h
    obtain ⟨pre, rest, hpre, hprelength⟩ := exists_split (l := s.contents) (i := be) (by omega)
    have hrest := congrArg List.length hpre
    rw [List.length_append] at hrest
    obtain ⟨xs, post, rfl, hxs⟩ := exists_split (l := rest) (i := en - be) (by omega)
    have hbytes : (Source.own be en).bytes s.contents = xs := by
      rw [Source.bytes, hpre, ← hprelength, List.drop_left, hprelength, ← hxs, List.take_left]
    refine ⟨pre, post ++ spare, ?_, ?_⟩
    · rw [hbytes, Source.place, hdata, hpre, hprelength, List.append_assoc, List.append_assoc]
    · rw [hbytes, hxs]
      rfl

/-! ## Sizes -/

theorem Room.lt {add : ℕ} (h : s.Room add) : s.size.toNat + add < 2 ^ 64 := by
  have hlt := s.reserved.toNat_lt
  rcases h with h | h <;> omega

theorem Room.toNat_add {add : ℕ} (h : s.Room add) :
    (s.size + UInt64.ofNat add).toNat = s.size.toNat + add := by
  have hlt := h.lt
  rw [UInt64.toNat_add, UInt64.toNat_ofNat']
  omega

/-- A new block has room for what does not fit. -/
theorem Room.le_capacity {add : ℕ} (h : s.Room add) (hfull : ¬s.size + UInt64.ofNat add ≤ s.reserved) :
    s.size.toNat + add ≤ ((s.size + UInt64.ofNat add + 32) * 3 / 2).toNat := by
  have hsum := h.toNat_add
  rw [UInt64.le_iff_toNat_le, hsum] at hfull
  have hlt : (s.size.toNat + add + 32) * 3 < 2 ^ 64 := h.resolve_left hfull
  rw [UInt64.toNat_div, UInt64.toNat_mul, UInt64.toNat_add, hsum]
  have hone : (s.size.toNat + add + 32) % 2 ^ 64 = s.size.toNat + add + 32 := Nat.mod_eq_of_lt (by omega)
  change _ ≤ (s.size.toNat + add + 32) % 2 ^ 64 * 3 % 2 ^ 64 / 2
  rw [hone, Nat.mod_eq_of_lt hlt]
  omega

theorem alloc_cases (new : Allocator) (si : UInt64) :
    (alloc new si = .error .refused ∧ ∃ n, new n = none) ∨
      ∃ block, block.length = si.toNat ∧ alloc new si = .ok ⟨block, si, si⟩ := by
  rw [alloc]
  rcases hnew : new si.toNat with _ | ⟨block, hblock⟩
  · exact .inl ⟨rfl, _, hnew⟩
  · exact .inr ⟨block, hblock, rfl⟩

/-! ## Inserting -/

/-- What comes after a place is moved away. The bytes before the place, and as many after it as were asked
for, are still the old ones. -/
theorem shift (A B room tail : Bytes) : ∃ gap, gap.length = room.length ∧ A ++ gap <+: A ++ (B ++ room) ∧
    goodMemmove (A ++ (B ++ (room ++ tail))) (A.length + room.length) (A ++ (B ++ (room ++ tail)), A.length)
      B.length = .ok (A ++ (gap ++ (B ++ tail))) := by
  obtain ⟨gap, rest, hsplit, hgap⟩ := exists_split (l := B ++ room) (i := room.length)
    (by rw [List.length_append]; omega)
  have hrest := congrArg List.length hsplit
  rw [List.length_append, List.length_append] at hrest
  refine ⟨gap, hgap, ⟨rest, by rw [List.append_assoc, hsplit]⟩, ?_⟩
  have hblock : A ++ (B ++ (room ++ tail)) = (A ++ gap) ++ (rest ++ tail) := by
    rw [← List.append_assoc B, hsplit, List.append_assoc, List.append_assoc]
  have hmove := goodMemmove_append (A ++ gap) rest tail A B (room ++ tail) (by omega)
  rw [List.length_append, hgap, List.append_assoc A gap (B ++ tail)] at hmove
  rw [← hmove, hblock]

private theorem copied_of_prefix {l A gap : Bytes} (room : Bytes) {be en : ℕ}
    (hgap : A ++ gap <+: l ++ room)
    (hen : en ≤ l.length) (hfits : en ≤ (A ++ gap).length) :
    ((A ++ gap).drop be).take (en - be) = (l.drop be).take (en - be) := by
  obtain ⟨rest, hrest⟩ := hgap
  have hcut (m n : Bytes) (hm : en ≤ m.length) :
      ((m ++ n).drop be).take (en - be) = (m.drop be).take (en - be) := by
    by_cases hbe : be ≤ m.length
    · rw [List.drop_append_of_le_length hbe, List.take_append_of_le_length]
      rw [List.length_drop]
      omega
    · rw [Nat.sub_eq_zero_of_le (by omega), List.take_zero, List.take_zero]
  rw [← hcut _ rest hfits, hrest, hcut _ _ hen]

/-- The contents with something between two of their parts. -/
theorem answers_of_parts {call : Call} {A xs B tail : Bytes} {size reserved : UInt64}
    (hcontents : s.contents = A ++ B) (hlength : A.length + B.length = s.size.toNat)
    (hsize : size.toNat = s.size.toNat + xs.length)
    (htail : s.size.toNat + xs.length + tail.length = reserved.toNat)
    (hgives : call.Gives (A ++ B) (A ++ (xs ++ B))) :
    s.Answers call (.ok ⟨A ++ (xs ++ (B ++ tail)), size, reserved⟩) := by
  have hdata : A ++ (xs ++ (B ++ tail)) = (A ++ (xs ++ B)) ++ tail := by
    rw [List.append_assoc, List.append_assoc]
  have hnew : (A ++ (xs ++ B)).length = size.toNat := by
    rw [List.length_append, List.length_append]
    omega
  rw [hdata]
  refine ⟨valid_of_append hnew (by rw [List.length_append]; omega), ?_⟩
  rw [contents_of_append hnew, hcontents]
  exact hgives

private theorem Valid.exists_places (h : s.Valid) {pos add : ℕ} (hpos : pos ≤ s.size.toNat)
    (hfits : s.size.toNat + add ≤ s.reserved.toNat) : ∃ A B room tail, s.data = A ++ (B ++ (room ++ tail)) ∧
      s.contents = A ++ B ∧ A.length = pos ∧ B.length = s.size.toNat - pos ∧ room.length = add ∧
        s.size.toNat + add + tail.length = s.reserved.toNat := by
  obtain ⟨spare, hdata, hlength, hspare⟩ := h.split
  obtain ⟨A, B, hcontents, hA⟩ := exists_split (l := s.contents) (i := pos) (by omega)
  obtain ⟨room, tail, rfl, hroom⟩ := exists_split (l := spare) (i := add) (by omega)
  rw [hcontents, List.length_append] at hlength
  rw [List.length_append] at hspare
  refine ⟨A, B, room, tail, ?_, hcontents, hA, by omega, hroom, by omega⟩
  rw [hdata, hcontents, List.append_assoc]

private theorem Valid.exists_cut (h : s.Valid) {pos : ℕ} (hpos : pos ≤ s.size.toNat) : ∃ spare A B,
    s.data = A ++ (B ++ spare) ∧ s.contents = A ++ B ∧ A.length = pos ∧ B.length = s.size.toNat - pos := by
  obtain ⟨spare, hdata, hlength, -⟩ := h.split
  obtain ⟨A, B, hcontents, hA⟩ := exists_split (l := s.contents) (i := pos) (by omega)
  rw [hcontents, List.length_append] at hlength
  exact ⟨spare, A, B, by rw [hdata, hcontents, List.append_assoc], hcontents, hA, by omega⟩

/-- The first moves to a new block: what comes before a place and what comes after it. -/
theorem exists_moved (A B spare block : Bytes) (add : ℕ) (h : A.length + add + B.length ≤ block.length) :
    ∃ first gap tail, gap.length = add ∧ A.length + add + B.length + tail.length = block.length ∧
      goodMemmove block 0 (A ++ (B ++ spare), 0) A.length = .ok first ∧
      goodMemmove first (A.length + add) (A ++ (B ++ spare), A.length) B.length =
        .ok (A ++ (gap ++ (B ++ tail))) := by
  obtain ⟨a, rest, rfl, ha⟩ := exists_split (l := block) (i := A.length) (by omega)
  rw [List.length_append] at h
  obtain ⟨gap, rest, rfl, hgap⟩ := exists_split (l := rest) (i := add) (by omega)
  rw [List.length_append] at h
  obtain ⟨b, tail, rfl, hb⟩ := exists_split (l := rest) (i := B.length) (by omega)
  have hfirst := goodMemmove_append [] a (gap ++ (b ++ tail)) [] A (B ++ spare) ha
  have hsecond := goodMemmove_append (A ++ gap) b tail A B spare hb
  rw [List.length_append, hgap] at hsecond
  rw [List.nil_append, List.nil_append, List.nil_append] at hfirst
  refine ⟨_, gap, tail, hgap, by simp only [List.length_append]; omega, hfirst, ?_⟩
  rw [← List.append_assoc A gap, hsecond, List.append_assoc]

private theorem Source.exists_shifted {source : Source} (h : source.Within s) {A B room gap : Bytes}
    (tail : Bytes)
    (hover : ¬source.Overtaken s A.length) (hcontents : s.contents = A ++ B)
    (hlength : A.length + B.length = s.size.toNat) (hsize : gap.length = source.size)
    (hgap : A ++ gap <+: A ++ (B ++ room))
    (hfits : s.size.toNat + source.size ≤ s.reserved.toNat) :
    ∃ pre post, source.place (A ++ (gap ++ (B ++ tail))) =
        (pre ++ (source.bytes s.contents ++ post), pre.length) ∧
      (source.bytes s.contents).length = source.size := by
  cases source with
  | other bytes hlt => exact ⟨[], [], by rw [List.append_nil]; rfl, rfl⟩
  | own be en =>
    obtain ⟨hbe, hen⟩ := h
    change gap.length = en - be at hsize
    change s.size.toNat + (en - be) ≤ s.reserved.toNat at hfits
    have hbytes : ((Source.own be en).bytes s.contents).length = en - be := by
      rw [Source.bytes, List.length_take, List.length_drop, hcontents, List.length_append]
      omega
    have hstart : be ≤ (A ++ (gap ++ (B ++ tail))).length := by
      simp only [List.length_append]
      omega
    obtain ⟨pre, rest, hblock, hpre⟩ := exists_split hstart
    by_cases hsame : be = en
    · -- nothing is copied
      have hnil : (Source.own be en).bytes s.contents = [] := by
        rw [← List.length_eq_zero_iff, hbytes, hsame, Nat.sub_self]
      refine ⟨pre, rest, ?_, hbytes⟩
      rw [hnil, List.nil_append, ← hblock, hpre]
      rfl
    · have hbefore : be ≤ A.length := by
        by_contra hafter
        exact hover ⟨Nat.lt_of_not_le hafter, Nat.lt_of_le_of_ne hbe hsame, hfits⟩
      have hkept : ((A ++ gap).drop be).take (en - be) = (Source.own be en).bytes s.contents := by
        rw [Source.bytes, hcontents]
        refine copied_of_prefix room ?_ ?_ ?_
        · rwa [List.append_assoc]
        · rw [List.length_append]
          omega
        · rw [List.length_append]
          omega
      refine ⟨(A ++ gap).take be, ((A ++ gap).drop be).drop (en - be) ++ (B ++ tail), ?_, hbytes⟩
      have htake : ((A ++ gap).take be).length = be :=
        List.length_take_of_le (by rw [List.length_append]; omega)
      rw [← hkept, htake, Source.place, ← List.append_assoc (((A ++ gap).drop be).take _),
        List.take_append_drop, ← List.append_assoc ((A ++ gap).take be), List.take_append_drop,
        List.append_assoc]

theorem take_drop_parts {A B xs : Bytes} :
    A ++ (xs ++ B) = (A ++ B).take A.length ++ (xs ++ (A ++ B).drop A.length) := by
  rw [List.take_left, List.drop_left]

/-- **Insertion**, of a source that is not moved away. -/
theorem Valid.insert (h : s.Valid) {new : Allocator} {pos : ℕ} {source : Source}
    (hproper : s.Proper (.insert new pos source)) :
    s.Answers (.insert new pos source) (s.insert new pos source) := by
  obtain ⟨hwithin, hroom, hover⟩ := hproper
  rw [BinaryArrayImpl.insert]
  by_cases hpos : pos ≤ s.size.toNat
  · rw [ensure_pos _ hpos, ok_bind]
    dsimp only
    have hsum := hroom.toNat_add
    by_cases hfits : s.size + UInt64.ofNat source.size ≤ s.reserved
    · -- in place
      rw [if_pos hfits]
      rw [UInt64.le_iff_toNat_le, hsum] at hfits
      obtain ⟨A, B, room, tail, hdata, hcontents, rfl, hB, hgiven, htail⟩ := h.exists_places hpos hfits
      obtain ⟨gap, hgap, hprefix, hmove⟩ := shift A B room tail
      rw [hgiven] at hgap hmove
      obtain ⟨pre, post, hplace, hsize⟩ := Source.exists_shifted hwithin tail hover hcontents (by omega) hgap
        hprefix hfits
      have hcopy := goodMemmove_append A gap (B ++ tail) pre (source.bytes s.contents) post
        (by rw [hgap, hsize])
      rw [hsize, ← hplace] at hcopy
      rw [← hB, hdata, hmove, ok_bind, hcopy, ok_bind]
      refine answers_of_parts hcontents (by omega) (by rw [hsum, hsize]) (by omega) ?_
      rw [Call.Gives, hcontents]
      exact take_drop_parts
    · -- in a new block
      rw [if_neg hfits]
      obtain ⟨spare, A, B, hdata, hcontents, rfl, hB⟩ := h.exists_cut hpos
      have hcapacity := hroom.le_capacity hfits
      rcases alloc_cases new ((s.size + UInt64.ofNat source.size + 32) * 3 / 2) with
        ⟨hrefused, hnone⟩ | ⟨block, hblock, halloc⟩
      · rw [hrefused]
        exact ⟨rfl, .inr hnone⟩
      · obtain ⟨first, gap, tail, hgap, htail, hfirst, hsecond⟩ :=
          exists_moved A B spare block source.size (by omega)
        obtain ⟨pre, post, hplace, hsize⟩ := Source.exists_place hwithin h
        have hcopy := goodMemmove_append A gap (B ++ tail) pre (source.bytes s.contents) post
          (by rw [hgap, hsize])
        rw [hsize, ← hplace] at hcopy
        rw [halloc, ok_bind, ← hB]
        dsimp only
        rw [hdata] at hcopy ⊢
        rw [hfirst, ok_bind, hsecond, ok_bind, hcopy, ok_bind]
        refine answers_of_parts hcontents (by omega) (by rw [hsum, hsize]) (by omega) ?_
        rw [Call.Gives, hcontents]
        exact take_drop_parts
  · rw [ensure, if_neg hpos]
    exact ⟨rfl, .inl (Nat.lt_of_not_le hpos)⟩

/-- Insertion of one byte many times. -/
theorem Valid.insertFill (h : s.Valid) {new : Allocator} {pos : ℕ} {add : UInt64} {va : UInt8}
    (hroom : s.Room add.toNat) :
    s.Answers (.insertFill new pos add va) (s.insertFill new pos add va) := by
  rw [BinaryArrayImpl.insertFill]
  by_cases hpos : pos ≤ s.size.toNat
  · rw [ensure_pos _ hpos, ok_bind]
    dsimp only
    have hsum := hroom.toNat_add
    have hcapacity := hroom.le_capacity
    rw [UInt64.ofNat_toNat] at hsum hcapacity
    by_cases hfits : s.size + add ≤ s.reserved
    · rw [if_pos hfits]
      rw [UInt64.le_iff_toNat_le, hsum] at hfits
      obtain ⟨A, B, room, tail, hdata, hcontents, rfl, hB, hgiven, htail⟩ := h.exists_places hpos hfits
      obtain ⟨gap, hgap, -, hmove⟩ := shift A B room tail
      have hfill := memset_append A gap (B ++ tail) va
      rw [hgiven] at hgap hmove
      rw [hgap] at hfill
      rw [← hB, hdata, hmove, ok_bind, hfill, ok_bind]
      refine answers_of_parts hcontents (by omega) (by rw [hsum, List.length_replicate])
        (by rw [List.length_replicate]; omega) ?_
      exact take_drop_parts
    · rw [if_neg hfits]
      obtain ⟨spare, A, B, hdata, hcontents, rfl, hB⟩ := h.exists_cut hpos
      have hcapacity := hcapacity hfits
      rcases alloc_cases new ((s.size + add + 32) * 3 / 2) with ⟨hrefused, hnone⟩ | ⟨block, hblock, halloc⟩
      · rw [hrefused]
        exact ⟨rfl, .inr hnone⟩
      · obtain ⟨first, gap, tail, hgap, htail, hfirst, hsecond⟩ :=
          exists_moved A B spare block add.toNat (by omega)
        have hfill := memset_append A gap (B ++ tail) va
        rw [hgap] at hfill
        rw [halloc, ok_bind, ← hB, hdata]
        dsimp only
        rw [hfirst, ok_bind, hsecond, ok_bind, hfill, ok_bind]
        refine answers_of_parts hcontents (by omega) (by rw [hsum, List.length_replicate])
          (by rw [List.length_replicate]; omega) ?_
        exact take_drop_parts
  · rw [ensure, if_neg hpos]
    exact ⟨rfl, .inl (Nat.lt_of_not_le hpos)⟩

/-! ## The other operations -/

private theorem Source.size_lt {source : Source} (h : source.Within s) : source.size < 2 ^ 64 := by
  cases source with
  | other bytes hlt => exact hlt
  | own be en =>
    obtain ⟨-, hen⟩ := h
    have hlt := s.size.toNat_lt
    change en - be < 2 ^ 64
    omega

theorem Valid.exists_moved (h : s.Valid) (block : Bytes) (hle : s.size.toNat ≤ block.length) :
    ∃ rest, goodMemmove block 0 (s.data, 0) s.size.toNat = .ok (s.contents ++ rest) ∧
      s.size.toNat + rest.length = block.length := by
  obtain ⟨spare, hdata, hlength, -⟩ := h.split
  obtain ⟨room, rest, rfl, hroom⟩ := exists_split hle
  have hmove := goodMemmove_append [] room rest [] s.contents spare (by omega)
  rw [List.nil_append, List.nil_append, List.nil_append, hlength, ← hdata] at hmove
  exact ⟨rest, hmove, by rw [List.length_append, hroom]⟩

/-- The contents, in a block that may be larger. -/
theorem Valid.reserveGrow (h : s.Valid) (new : Allocator) (re : UInt64) (more : Bool)
    (hroom : ¬re ≤ s.reserved → re.toNat ≤ (if more then (re + 32) * 3 / 2 else re).toNat) :
    (s.reserveGrow new re more = .error .refused ∧ ∃ n, new n = none) ∨ ∃ s', s.reserveGrow new re more = .ok s' ∧ s'.Valid ∧
      s'.contents = s.contents ∧ s'.size = s.size ∧ re.toNat ≤ s'.reserved.toNat := by
  obtain ⟨-, -, hlength, -⟩ := h.split
  rw [BinaryArrayImpl.reserveGrow]
  by_cases hfits : re ≤ s.reserved
  · rw [if_pos hfits]
    exact .inr ⟨s, rfl, h, rfl, rfl, UInt64.le_iff_toNat_le.mp hfits⟩
  · rw [if_neg hfits]
    have hle := hroom hfits
    rw [UInt64.le_iff_toNat_le] at hfits
    have hsize := h.size_le
    rcases alloc_cases new (if more then (re + 32) * 3 / 2 else re) with ⟨hrefused, hnone⟩ | ⟨block, hblock, halloc⟩
    · rw [hrefused]
      exact .inl ⟨rfl, hnone⟩
    · obtain ⟨rest, hmove, hrest⟩ := h.exists_moved block (by omega)
      rw [halloc, ok_bind]
      dsimp only
      rw [hmove, ok_bind]
      exact .inr ⟨_, rfl, valid_of_append hlength (by rw [List.length_append]; omega),
        contents_of_append hlength, rfl, hle⟩

theorem Valid.reserve (h : s.Valid) {new : Allocator} {re : UInt64} :
    s.Answers (.reserve new re) (s.reserve new re) := by
  rw [BinaryArrayImpl.reserve]
  rcases h.reserveGrow new re false fun _ ↦ le_refl _ with
    ⟨hrefused, hnone⟩ | ⟨s', hs', hvalid, hsame, -⟩
  · rw [hrefused]
    exact ⟨rfl, hnone⟩
  · rw [hs']
    exact ⟨hvalid, hsame⟩

theorem Valid.pushBack (h : s.Valid) {new : Allocator} {va : UInt8} (hroom : s.Room 1) :
    s.Answers (.pushBack new va) (s.pushBack new va) := by
  have hsum := hroom.toNat_add
  have hcapacity := hroom.le_capacity
  change (s.size + 1).toNat = _ at hsum
  change ¬s.size + 1 ≤ s.reserved → _ ≤ ((s.size + 1 + 32) * 3 / 2).toNat at hcapacity
  rw [BinaryArrayImpl.pushBack]
  rcases h.reserveGrow new (s.size + 1) true fun hfull ↦ by rw [hsum]; exact hcapacity hfull with
    ⟨hrefused, hnone⟩ | ⟨s', hs', hvalid, hsame, hsize, hle⟩
  · rw [hrefused]
    exact ⟨rfl, hnone⟩
  · obtain ⟨spare, hdata, hlength, hspare⟩ := hvalid.split
    rw [hs', ok_bind]
    rw [hsum] at hle
    rw [hsize] at hspare hlength
    obtain ⟨x, tail, rfl⟩ := List.exists_cons_of_ne_nil
      (List.ne_nil_of_length_pos (l := spare) (by omega))
    have hwrite := writeAt_append s'.contents tail x va
    rw [hlength, ← hdata] at hwrite
    rw [hsize, hwrite, ok_bind]
    have hnew : (s'.contents ++ [va]).length = (s.size + 1).toNat := by
      rw [List.length_append, hlength, hsum]
      rfl
    rw [List.length_cons] at hspare
    have hblock : s'.contents ++ va :: tail = (s'.contents ++ [va]) ++ tail := by
      rw [List.append_assoc]
      rfl
    rw [hblock]
    refine ⟨valid_of_append hnew ?_, ?_⟩
    · rw [List.length_append, hnew, hsum]
      omega
    · rw [contents_of_append hnew, hsame]
      rfl

theorem Valid.assign (h : s.Valid) {new : Allocator} {source : Source} (hwithin : source.Within s) :
    s.Answers (.assign new source) (s.assign new source) := by
  have hlt := Source.size_lt hwithin
  have hsi : (UInt64.ofNat source.size).toNat = source.size := by
    rw [UInt64.toNat_ofNat', Nat.mod_eq_of_lt hlt]
  obtain ⟨pre, post, hplace, hsize⟩ := Source.exists_place hwithin h
  -- what is copied to the beginning of a block
  have hcopy (block : Bytes) (hle : source.size ≤ block.length) : ∃ tail,
      goodMemmove block 0 (source.place s.data) source.size = .ok (source.bytes s.contents ++ tail) ∧
        source.size + tail.length = block.length := by
    obtain ⟨room, tail, rfl, hroom⟩ := exists_split hle
    have hmove := goodMemmove_append [] room tail pre (source.bytes s.contents) post (by omega)
    rw [List.nil_append, List.nil_append, ← hplace, hsize] at hmove
    exact ⟨tail, hmove, by rw [List.length_append, hroom]⟩
  have hnew : (source.bytes s.contents).length = (UInt64.ofNat source.size).toNat := by rw [hsize, hsi]
  rw [BinaryArrayImpl.assign]
  by_cases hfits : UInt64.ofNat source.size ≤ s.reserved
  · rw [UInt64.le_iff_toNat_le, hsi] at hfits
    obtain ⟨tail, hmove, htail⟩ := hcopy s.data (by rw [h.block]; exact hfits)
    rw [if_pos (by rwa [UInt64.le_iff_toNat_le, hsi]), hmove, ok_bind]
    refine ⟨valid_of_append hnew ?_, contents_of_append hnew⟩
    rw [List.length_append, hsize, htail, h.block]
  · rw [if_neg hfits]
    rcases alloc_cases new (UInt64.ofNat source.size) with ⟨hrefused, hnone⟩ | ⟨block, hblock, halloc⟩
    · rw [hrefused]
      exact ⟨rfl, hnone⟩
    · obtain ⟨tail, hmove, htail⟩ := hcopy block (by rw [hblock, hsi])
      rw [halloc, ok_bind]
      dsimp only
      rw [hmove, ok_bind]
      refine ⟨valid_of_append hnew ?_, contents_of_append hnew⟩
      rw [List.length_append, hsize, htail, hblock]

theorem Valid.resize (h : s.Valid) {new : Allocator} {si : UInt64} :
    s.Answers (.resize new si) (s.resize new si) := by
  obtain ⟨spare, hdata, hlength, hspare⟩ := h.split
  rw [BinaryArrayImpl.resize]
  by_cases hfits : si ≤ s.reserved
  · rw [if_pos hfits]
    rw [UInt64.le_iff_toNat_le] at hfits
    refine ⟨⟨hfits, h.block⟩, spare.take (si.toNat - s.contents.length), ?_, ?_⟩
    · change s.data.take si.toNat = _
      rw [← List.take_append, ← hdata]
    · change (s.data.take si.toNat).length = _
      rw [List.length_take, h.block, Nat.min_eq_left hfits]
  · rw [if_neg hfits]
    rw [UInt64.le_iff_toNat_le] at hfits
    rcases alloc_cases new si with ⟨hrefused, hnone⟩ | ⟨block, hblock, halloc⟩
    · rw [hrefused]
      exact ⟨rfl, hnone⟩
    · obtain ⟨rest, hmove, hrest⟩ := h.exists_moved block (by omega)
      rw [halloc, ok_bind]
      dsimp only
      rw [hmove, ok_bind]
      have hwhole : (s.contents ++ rest).length = si.toNat := by
        rw [List.length_append]
        omega
      refine ⟨⟨le_refl _, hwhole⟩, rest, ?_, ?_⟩
      · change (s.contents ++ rest).take si.toNat = _
        rw [List.take_of_length_le (le_of_eq hwhole), List.take_of_length_le (by omega)]
      · change ((s.contents ++ rest).take si.toNat).length = _
        rw [List.take_of_length_le (le_of_eq hwhole), hwhole]

theorem Valid.resizeFill (h : s.Valid) {new : Allocator} {si : UInt64} {va : UInt8} :
    s.Answers (.resizeFill new si va) (s.resizeFill new si va) := by
  obtain ⟨spare, hdata, hlength, hspare⟩ := h.split
  have hsize := h.size_le
  rw [BinaryArrayImpl.resizeFill]
  by_cases hless : si ≤ s.size
  · rw [if_pos hless]
    rw [UInt64.le_iff_toNat_le] at hless
    refine ⟨⟨hless.trans h.size_le, h.block⟩, ?_⟩
    change s.data.take si.toNat = s.contents.take si.toNat ++ List.replicate (si.toNat - s.contents.length) va
    rw [hlength, Nat.sub_eq_zero_of_le hless, List.replicate_zero, List.append_nil, contents, List.take_take,
      Nat.min_eq_left hless]
  · rw [if_neg hless]
    rw [UInt64.not_le] at hless
    have hadd : (si - s.size).toNat = si.toNat - s.size.toNat :=
      UInt64.toNat_sub_of_le _ _ (UInt64.le_of_lt hless)
    rw [UInt64.lt_iff_toNat_lt] at hless
    -- the contents with what fills them up
    have hfill (room tail : Bytes) (hroom : room.length = (si - s.size).toNat) (reserved : UInt64)
        (hreserved : si.toNat + tail.length = reserved.toNat) :
        ∃ data, memset (s.contents ++ (room ++ tail)) s.size.toNat va (si - s.size).toNat = .ok data ∧
          s.Answers (.resizeFill new si va) (.ok ⟨data, si, reserved⟩) := by
      have hset := memset_append s.contents room tail va
      rw [hlength, hroom] at hset
      have hnew : (s.contents ++ List.replicate (si - s.size).toNat va).length = si.toNat := by
        rw [List.length_append, List.length_replicate]
        omega
      refine ⟨_, hset, ?_⟩
      rw [← List.append_assoc]
      refine ⟨valid_of_append hnew ?_, ?_⟩
      · rw [List.length_append, hnew, hreserved]
      · rw [contents_of_append hnew]
        change _ = s.contents.take si.toNat ++ List.replicate (si.toNat - s.contents.length) va
        rw [List.take_of_length_le (by omega), hadd, hlength]
    by_cases hfits : si ≤ s.reserved
    · rw [if_pos hfits]
      rw [UInt64.le_iff_toNat_le] at hfits
      obtain ⟨room, tail, rfl, hroom⟩ := exists_split (l := spare) (i := (si - s.size).toNat) (by omega)
      rw [List.length_append] at hspare
      obtain ⟨data, hset, hanswers⟩ := hfill room tail hroom s.reserved (by omega)
      rw [hdata, hset, ok_bind]
      exact hanswers
    · rw [if_neg hfits]
      rw [UInt64.le_iff_toNat_le] at hfits
      rcases alloc_cases new si with ⟨hrefused, hnone⟩ | ⟨block, hblock, halloc⟩
      · rw [hrefused]
        exact ⟨rfl, hnone⟩
      · obtain ⟨rest, hmove, hrest⟩ := h.exists_moved block (by omega)
        obtain ⟨data, hset, hanswers⟩ := hfill rest [] (by omega) si rfl
        rw [List.append_nil] at hset
        rw [halloc, ok_bind]
        dsimp only
        rw [hmove, ok_bind, hset, ok_bind]
        exact hanswers

theorem Answers.mono {call call' : Call} {x : Except Failure BinaryArrayImpl} (h : s.Answers call x)
    (hrefusable : s.Refusable call → s.Refusable call')
    (hgives : ∀ l', call.Gives s.contents l' → call'.Gives s.contents l') : s.Answers call' x := by
  rcases x with _ | s'
  · exact ⟨h.1, hrefusable h.2⟩
  · exact ⟨h.1, hgives _ h.2⟩

/-- At the end there is nothing that could be moved away. -/
theorem Valid.append (h : s.Valid) {new : Allocator} {source : Source} (hwithin : source.Within s)
    (hroom : s.Room source.size) :
    s.Answers (.append new source) (s.append new source) := by
  obtain ⟨-, -, hlength, -⟩ := h.split
  have hover : ¬source.Overtaken s s.size.toNat := by
    cases source with
    | other bytes hlt => exact id
    | own be en =>
      rintro ⟨hafter, hlt, -⟩
      have hen := hwithin.2
      omega
  refine (h.insert ⟨hwithin, hroom, hover⟩).mono (·.resolve_left (Nat.lt_irrefl _)) fun l' hl' ↦ ?_
  change l' = s.contents.take _ ++ (source.bytes s.contents ++ s.contents.drop _) at hl'
  rw [hl', List.take_of_length_le (by omega), List.drop_eq_nil_of_le (by omega), List.append_nil]
  rfl

theorem Valid.appendFill (h : s.Valid) {new : Allocator} {add : UInt64} {va : UInt8}
    (hroom : s.Room add.toNat) :
    s.Answers (.appendFill new add va) (s.appendFill new add va) := by
  obtain ⟨-, -, hlength, -⟩ := h.split
  refine (h.insertFill hroom).mono (·.resolve_left (Nat.lt_irrefl _)) fun l' hl' ↦ ?_
  change l' = s.contents.take _ ++ (List.replicate _ va ++ s.contents.drop _) at hl'
  rw [hl', List.take_of_length_le (by omega), List.drop_eq_nil_of_le (by omega), List.append_nil]
  rfl

/-! ## Runs -/

/-- **Step lemma.** -/
theorem Valid.step (h : s.Valid) {call : Call} (hproper : s.Proper call) :
    s.Answers call (s.step call) := by
  cases call with
  | insert new pos source => exact h.insert hproper
  | insertFill new pos add va => exact h.insertFill hproper
  | append new source => exact h.append hproper.1 hproper.2
  | appendFill new add va => exact h.appendFill hproper
  | assign new source => exact h.assign hproper
  | resize new si => exact h.resize
  | resizeFill new si va => exact h.resizeFill
  | reserve new re => exact h.reserve
  | pushBack new va => exact h.pushBack hproper

/-- **An array is a list.** In every state that proper calls lead to from a constructor no more bytes count
than there are in the block, and every proper call does to the contents what it does to a list, or is refused
for a place after the end or for want of memory; it never copies beyond a block. -/
theorem answers_of_reaches (h : Reaches BinaryArrayImpl.step Proper Constructed s) : s.Valid ∧
    ∀ call, s.Proper call → s.Answers call (s.step call) := by
  have hvalid : s.Valid := by
    refine h.invariant (I := Valid) (fun s hs ↦ ⟨le_of_eq (congrArg _ hs.full), hs.block⟩) ?_
    intro s call s' _ hs hproper hs'
    have hanswers := hs.step hproper
    rw [hs'] at hanswers
    exact hanswers.1
  exact ⟨hvalid, fun call hproper ↦ hvalid.step hproper⟩

/-! ## A sample -/

/-- Every allocation succeeds, and gives zeros. -/
def sampleNew : Allocator := fun n ↦ some ⟨List.replicate n 0, List.length_replicate⟩

def sampleAppend : Call := .append sampleNew (.other [1, 2, 3] (by decide))

private theorem reaches_of_sampleAppend {s : BinaryArrayImpl}
    (h : BinaryArrayImpl.step {} sampleAppend = .ok s) :
    Reaches BinaryArrayImpl.step Proper Constructed s :=
  .next (.start ⟨rfl, rfl⟩) (show Proper {} sampleAppend from ⟨trivial, .inr (by decide)⟩) h

/-- The first two bytes are inserted after the first one. -/
theorem answers_of_reaches_sample : ∃ s, BinaryArrayImpl.step {} sampleAppend = .ok s ∧
    s.contents = [1, 2, 3] ∧ s.Answers (.insert sampleNew 1 (.own 0 2))
      (s.step (.insert sampleNew 1 (.own 0 2))) := by
  obtain ⟨s, hs, hcontents, hsize, hreserved⟩ : ∃ s ∈ (BinaryArrayImpl.step {} sampleAppend).toOption,
      s.contents = [1, 2, 3] ∧ s.size = 3 ∧ s.reserved = 52 := by
    decide +kernel
  have hs := toOption_eq_some.mp hs
  refine ⟨s, hs, hcontents, (answers_of_reaches (reaches_of_sampleAppend hs)).2 _ ⟨?_, .inl ?_, ?_⟩⟩
  · exact ⟨by decide, by rw [hsize]; decide⟩
  · rw [hsize, hreserved]
    decide
  · exact fun hover ↦ absurd hover.1 (by decide)

/-- The last two bytes are to be inserted before the first one, but they have been moved away. -/
theorem insert_overtaken : ∃ s s', BinaryArrayImpl.step {} sampleAppend = .ok s ∧
    s.contents = [1, 2, 3] ∧ s.step (.insert sampleNew 0 (.own 1 3)) = .ok s' ∧
    s'.contents = [2, 1, 1, 2, 3] ∧ ¬(Call.insert sampleNew 0 (.own 1 3)).Gives s.contents s'.contents := by
  obtain ⟨s, hs, hcontents, s', hs', hcontents'⟩ : ∃ s ∈ (BinaryArrayImpl.step {} sampleAppend).toOption,
      s.contents = [1, 2, 3] ∧ ∃ s' ∈ (s.step (.insert sampleNew 0 (.own 1 3))).toOption,
        s'.contents = [2, 1, 1, 2, 3] := by
    decide +kernel
  refine ⟨s, s', toOption_eq_some.mp hs, hcontents, toOption_eq_some.mp hs', hcontents', ?_⟩
  rw [hcontents, hcontents']
  exact (by decide : ¬[2, 1, 1, 2, 3] = ([2, 3] ++ [1, 2, 3] : Bytes))

end BinaryArrayImpl

end CryoNero
