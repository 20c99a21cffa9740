import SolverScript.Text.Utf8

/-!
# Decoding is the inverse of the encoding

The decoder looks at the first byte of a sequence, takes as many continuation bytes as that byte
asks for, and then rejects overlong forms, surrogates and numbers beyond the last character. Here it
is compared with the encoding itself, in the form in which the library of this language has it: a
sequence of bytes is decoded to some characters if and only if it is their encoding. So the strict
decoder accepts exactly the valid texts, and no two texts are decoded to the same characters.

## Main definitions

* `Utf8.Encodes` - a text is the encoding of some characters

## Main results

* `Utf8.decode?_eq_some_iff` - the decoder finds exactly the characters that the bytes encode
-/

namespace SolverScript.Utf8

/-- The bytes of `text` are the encoding of `characters`. -/
def Encodes (text : String) (characters : List Char) : Prop :=
  text.toList.map Char.toNat =
    characters.flatMap fun c => (String.utf8EncodeChar c).map UInt8.toNat

/-- The largest character. -/
theorem toNat_lt (c : Char) : c.toNat < 0x110000 := by
  rcases c.valid with h | ⟨-, h⟩
  · exact Nat.lt_trans h (by decide)
  · exact h

/-- The bytes of a character are those that the library of this language has for it. -/
theorem bytes_eq (c : Char) : bytes c = (String.utf8EncodeChar c).map UInt8.toNat := by
  have hlt := toNat_lt c
  have hval : c.val.toNat = c.toNat := rfl
  -- The same four ranges, where the library compares with the largest number of each.
  simp only [bytes, String.utf8EncodeChar, hval, ← Nat.lt_succ_iff]
  split
  · simp
    omega
  · split
    · simp
      omega
    · split
      · simp
        omega
      · simp
        omega

theorem encodes_iff {text : String} {characters : List Char} :
    Encodes text characters ↔ text.toList.map Char.toNat = characters.flatMap bytes := by
  rw [Encodes, funext bytes_eq]

/-! ### The parts of a sequence -/

theorem continuation?_eq_some_iff {byte : Char} {n : Nat} :
    continuation? byte = some n ↔ byte.toNat = 0x80 + n ∧ n < 0x40 := by
  unfold continuation?
  split <;> simp <;> omega

theorem scalar?_eq_some_iff {least n : Nat} {c : Char} :
    scalar? least n = some c ↔ c.toNat = n ∧ least ≤ n := by
  by_cases hvalid : n.isValidChar
  · rw [scalar?, dif_pos hvalid, Option.ite_none_right_eq_some, Option.some.injEq]
    constructor
    · rintro ⟨hleast, rfl⟩
      exact ⟨rfl, hleast⟩
    · rintro ⟨rfl, hleast⟩
      exact ⟨hleast, rfl⟩
  · rw [scalar?, dif_neg hvalid]
    constructor
    · nofun
    · rintro ⟨rfl, -⟩
      exact absurd c.valid hvalid

/-- Two bytes belong together if they are an encoding. -/
theorem pair?_eq_some_iff {a b c : Char} (hle : 0xC0 ≤ a.toNat) (hlt : a.toNat < 0xE0) :
    pair? a b = some c ↔ [a.toNat, b.toNat] = bytes c := by
  simp only [pair?, Option.bind_eq_bind, Option.bind_eq_some_iff, continuation?_eq_some_iff,
    scalar?_eq_some_iff, bytes]
  constructor
  · -- An overlong form has a number below the least one, so this is the branch of two bytes.
    rintro ⟨y, ⟨hb, hy⟩, hc, hleast⟩
    rw [if_neg (by omega), if_pos (by omega)]
    simp only [List.cons.injEq, and_true]
    omega
  · intro h
    split at h
    · simp at h
    · split at h
      · simp only [List.cons.injEq, and_true] at h
        exact ⟨c.toNat % 64, by omega, by omega⟩
      · split at h <;> simp at h

theorem triple?_eq_some_iff {a b c x : Char} (hle : 0xE0 ≤ a.toNat) (hlt : a.toNat < 0xF0) :
    triple? a b c = some x ↔ [a.toNat, b.toNat, c.toNat] = bytes x := by
  simp only [triple?, Option.bind_eq_bind, Option.bind_eq_some_iff, continuation?_eq_some_iff,
    scalar?_eq_some_iff, bytes]
  constructor
  · rintro ⟨y, ⟨hb, hy⟩, z, ⟨hc, hz⟩, hx, hleast⟩
    rw [if_neg (by omega), if_neg (by omega), if_pos (by omega)]
    simp only [List.cons.injEq, and_true]
    omega
  · intro h
    split at h
    · simp at h
    · split at h
      · simp at h
      · split at h
        · simp only [List.cons.injEq, and_true] at h
          exact ⟨x.toNat / 64 % 64, by omega, x.toNat % 64, by omega, by omega⟩
        · simp at h

theorem quadruple?_eq_some_iff {a b c d x : Char} (hle : 0xF0 ≤ a.toNat) :
    quadruple? a b c d = some x ↔ [a.toNat, b.toNat, c.toNat, d.toNat] = bytes x := by
  simp only [quadruple?, Option.bind_eq_bind, Option.bind_eq_some_iff, continuation?_eq_some_iff,
    scalar?_eq_some_iff, bytes]
  constructor
  · rintro ⟨y, ⟨hb, hy⟩, z, ⟨hc, hz⟩, w, ⟨hd, hw⟩, hx, hleast⟩
    rw [if_neg (by omega), if_neg (by omega), if_neg (by omega)]
    simp only [List.cons.injEq, and_true]
    omega
  · intro h
    split at h
    · simp at h
    · split at h
      · simp at h
      · split at h
        · simp at h
        · simp only [List.cons.injEq, and_true] at h
          exact ⟨x.toNat / 4096 % 64, by omega, x.toNat / 64 % 64, by omega, x.toNat % 64,
            by omega, by omega⟩

/-! ### Sequences -/

variable {a b c d x : Char} {rest : List Char}

theorem decode?_single (h : a.toNat < 0x80) :
    decode? (a :: rest) = (decode? rest).map (a :: ·) := by
  rw [decode?.eq_def]
  exact if_pos h

theorem decode?_pair (hle : 0xC0 ≤ a.toNat) (hlt : a.toNat < 0xE0) :
    decode? (a :: b :: rest) = (pair? a b).bind fun x => (decode? rest).map (x :: ·) := by
  rw [decode?.eq_def]
  simp only [if_neg (show ¬ a.toNat < 0x80 by omega), if_neg (Nat.not_lt.mpr hle), if_pos hlt]
  rfl

theorem decode?_triple (hle : 0xE0 ≤ a.toNat) (hlt : a.toNat < 0xF0) :
    decode? (a :: b :: c :: rest) =
      (triple? a b c).bind fun x => (decode? rest).map (x :: ·) := by
  rw [decode?.eq_def]
  simp only [if_neg (show ¬ a.toNat < 0x80 by omega), if_neg (show ¬ a.toNat < 0xC0 by omega),
    if_neg (Nat.not_lt.mpr hle), if_pos hlt]
  rfl

theorem decode?_quadruple (hle : 0xF0 ≤ a.toNat) (hlt : a.toNat < 0xF8) :
    decode? (a :: b :: c :: d :: rest) =
      (quadruple? a b c d).bind fun x => (decode? rest).map (x :: ·) := by
  rw [decode?.eq_def]
  simp only [if_neg (show ¬ a.toNat < 0x80 by omega), if_neg (show ¬ a.toNat < 0xC0 by omega),
    if_neg (show ¬ a.toNat < 0xE0 by omega), if_neg (Nat.not_lt.mpr hle), if_pos hlt]
  rfl

/-- The encoding of a character in front of other bytes is decoded to that character. -/
theorem decode?_append {bs : List Char} (h : bs.map Char.toNat = bytes x) :
    decode? (bs ++ rest) = (decode? rest).map (x :: ·) := by
  have hlt := toNat_lt x
  -- The range of the character fixes the number of bytes, and the first one leads to their branch.
  have hshape := h
  simp only [bytes] at hshape
  split at hshape
  · obtain ⟨a, bs, rfl, ha, hnil⟩ := List.map_eq_cons_iff.mp hshape
    obtain rfl := List.map_eq_nil_iff.mp hnil
    obtain rfl : a = x := Char.toNat_inj.mp ha
    exact decode?_single (by omega)
  · split at hshape
    · obtain ⟨a, bs, rfl, ha, hshape⟩ := List.map_eq_cons_iff.mp hshape
      obtain ⟨b, bs, rfl, -, hnil⟩ := List.map_eq_cons_iff.mp hshape
      obtain rfl := List.map_eq_nil_iff.mp hnil
      have hle : 0xC0 ≤ a.toNat := by omega
      have hlt : a.toNat < 0xE0 := by omega
      exact (decode?_pair hle hlt).trans
        (congrArg (Option.bind · _) ((pair?_eq_some_iff hle hlt).mpr h))
    · split at hshape
      · obtain ⟨a, bs, rfl, ha, hshape⟩ := List.map_eq_cons_iff.mp hshape
        obtain ⟨b, bs, rfl, -, hshape⟩ := List.map_eq_cons_iff.mp hshape
        obtain ⟨c, bs, rfl, -, hnil⟩ := List.map_eq_cons_iff.mp hshape
        obtain rfl := List.map_eq_nil_iff.mp hnil
        have hle : 0xE0 ≤ a.toNat := by omega
        have hlt : a.toNat < 0xF0 := by omega
        exact (decode?_triple hle hlt).trans
          (congrArg (Option.bind · _) ((triple?_eq_some_iff hle hlt).mpr h))
      · obtain ⟨a, bs, rfl, ha, hshape⟩ := List.map_eq_cons_iff.mp hshape
        obtain ⟨b, bs, rfl, -, hshape⟩ := List.map_eq_cons_iff.mp hshape
        obtain ⟨c, bs, rfl, -, hshape⟩ := List.map_eq_cons_iff.mp hshape
        obtain ⟨d, bs, rfl, -, hnil⟩ := List.map_eq_cons_iff.mp hshape
        obtain rfl := List.map_eq_nil_iff.mp hnil
        have hle : 0xF0 ≤ a.toNat := by omega
        have hlt : a.toNat < 0xF8 := by omega
        exact (decode?_quadruple hle hlt).trans
          (congrArg (Option.bind · _) ((quadruple?_eq_some_iff hle).mpr h))

/-- The decoder goes on behind the bytes of one character. -/
theorem map_toNat_append (front : List Char) {rest characters : List Char}
    (hfront : front.map Char.toNat = bytes x)
    (hrest : rest.map Char.toNat = characters.flatMap bytes) :
    (front ++ rest).map Char.toNat = (x :: characters).flatMap bytes := by
  rw [List.map_append, List.flatMap_cons, hfront, hrest]

/-- What is decoded from some bytes is encoded by them. -/
theorem map_toNat_of_decode? {bs characters : List Char} (h : decode? bs = some characters) :
    bs.map Char.toNat = characters.flatMap bytes := by
  -- The cases are those of the decoder: by the number of bytes, and for each too few of them.
  fun_induction decode? bs generalizing characters with
  | case1 =>
    obtain rfl := Option.some.inj h
    rfl
  | case2 a rest ha ih =>
    obtain ⟨cs, hcs, rfl⟩ := Option.map_eq_some_iff.mp h
    have hbytes : [a].map Char.toNat = bytes a := (if_pos ha).symm
    exact map_toNat_append [a] hbytes (ih hcs)
  | case5 a _ b rest hle hlt ih =>
    obtain ⟨x, hx, h⟩ := Option.bind_eq_some_iff.mp h
    obtain ⟨cs, hcs, rfl⟩ := Option.map_eq_some_iff.mp h
    have hbytes := (pair?_eq_some_iff (Nat.not_lt.mp hle) hlt).mp hx
    exact map_toNat_append [a, b] hbytes (ih hcs)
  | case7 a _ b _ hle c rest hlt ih =>
    obtain ⟨x, hx, h⟩ := Option.bind_eq_some_iff.mp h
    obtain ⟨cs, hcs, rfl⟩ := Option.map_eq_some_iff.mp h
    have hbytes := (triple?_eq_some_iff (Nat.not_lt.mp hle) hlt).mp hx
    exact map_toNat_append [a, b, c] hbytes (ih hcs)
  | case9 a _ b _ _ c hle d rest hlt ih =>
    obtain ⟨x, hx, h⟩ := Option.bind_eq_some_iff.mp h
    obtain ⟨cs, hcs, rfl⟩ := Option.map_eq_some_iff.mp h
    have hbytes := (quadruple?_eq_some_iff (Nat.not_lt.mp hle)).mp hx
    exact map_toNat_append [a, b, c, d] hbytes (ih hcs)
  | case3 | case4 | case6 | case8 | case10 => cases h

/-- The decoder finds exactly the characters that the bytes encode. -/
theorem decode?_eq_some_iff {bs characters : List Char} :
    decode? bs = some characters ↔ bs.map Char.toNat = characters.flatMap bytes := by
  refine ⟨map_toNat_of_decode?, fun h => ?_⟩
  induction characters generalizing bs with
  | nil =>
    obtain rfl := List.map_eq_nil_iff.mp h
    rfl
  | cons c cs ih =>
    obtain ⟨front, rest, rfl, hfront, hrest⟩ := List.map_eq_append_iff.mp h
    rw [decode?_append hfront, ih hrest]
    rfl

/-- A text is decoded to the characters that it is the encoding of. -/
theorem decode?_toList_eq_some_iff {text : String} {characters : List Char} :
    decode? text.toList = some characters ↔ Encodes text characters :=
  decode?_eq_some_iff.trans encodes_iff.symm

/-- A text is the encoding of its characters, and so two texts with the same ones are equal. -/
theorem Encodes.text_injective {text other : String} {characters : List Char}
    (h : Encodes text characters) (hother : Encodes other characters) : text = other := by
  have hbytes : text.toList.map Char.toNat = other.toList.map Char.toNat := h.trans hother.symm
  exact String.toList_inj.mp ((List.map_inj_right fun _ _ => Char.toNat_inj.mp).mp hbytes)

end SolverScript.Utf8
