import GoKv.Lib.Decimal

/-! UTF-8 as package unicode/utf8 reads and writes it. A byte that starts no valid sequence is read
alone, as the replacement character. -/
namespace GoLib

/-- utf8.RuneError, the replacement character. -/
def runeError : ℕ := 0xFFFD

/-- How long the sequence is that a byte begins, and the range of its second byte. -/
def leadByte (b : UInt8) : Option (ℕ × UInt8 × UInt8) :=
  if 0xC2 ≤ b ∧ b ≤ 0xDF then some (2, 0x80, 0xBF)
  else if b = 0xE0 then some (3, 0xA0, 0xBF)
  else if 0xE1 ≤ b ∧ b ≤ 0xEC then some (3, 0x80, 0xBF)
  else if b = 0xED then some (3, 0x80, 0x9F)
  else if 0xEE ≤ b ∧ b ≤ 0xEF then some (3, 0x80, 0xBF)
  else if b = 0xF0 then some (4, 0x90, 0xBF)
  else if 0xF1 ≤ b ∧ b ≤ 0xF3 then some (4, 0x80, 0xBF)
  else if b = 0xF4 then some (4, 0x80, 0x8F)
  else none

def contBits (lo hi b : UInt8) : Option ℕ :=
  if lo ≤ b ∧ b ≤ hi then some (b.toNat - 0x80) else none

/-- The rune of a sequence of two or more bytes that begins with `b`, and how many bytes follow
`b` in it. -/
def decodeLong (b : UInt8) (rest : Bytes) : Option (ℕ × ℕ) :=
  match leadByte b, rest with
  | some (2, lo, hi), b1 :: _ =>
    (contBits lo hi b1).map fun x => ((b.toNat - 0xC0) * 2 ^ 6 + x, 1)
  | some (3, lo, hi), b1 :: b2 :: _ =>
    (contBits lo hi b1).bind fun x => (contBits 0x80 0xBF b2).map fun y =>
      ((b.toNat - 0xE0) * 2 ^ 12 + x * 2 ^ 6 + y, 2)
  | some (4, lo, hi), b1 :: b2 :: b3 :: _ =>
    (contBits lo hi b1).bind fun x => (contBits 0x80 0xBF b2).bind fun y =>
      (contBits 0x80 0xBF b3).map fun z =>
        ((b.toNat - 0xF0) * 2 ^ 18 + x * 2 ^ 12 + y * 2 ^ 6 + z, 3)
  | _, _ => none

/-- The first rune of a string, and how many bytes follow its first. -/
def decodeRune (b : UInt8) (rest : Bytes) : ℕ × ℕ :=
  if b < 0x80 then (b.toNat, 0) else (decodeLong b rest).getD (runeError, 0)

def runesAfter : ℕ → Bytes → List ℕ
  | _, [] => []
  | 0, b :: bs => (decodeRune b bs).1 :: runesAfter (decodeRune b bs).2 bs
  | k + 1, _ :: bs => runesAfter k bs

/-- The runes a range loop over a string yields. -/
def runes (s : Bytes) : List ℕ := runesAfter 0 s

/-- utf8.AppendRune. What is not a code point is written as the replacement character. -/
def encodeRune (r : ℕ) : Bytes :=
  if r < 0x80 then [UInt8.ofNat r]
  else if r < 0x800 then [UInt8.ofNat (0xC0 + r / 2 ^ 6), UInt8.ofNat (0x80 + r % 2 ^ 6)]
  else if 0x110000 ≤ r ∨ 0xD800 ≤ r ∧ r < 0xE000 then [0xEF, 0xBF, 0xBD]
  else if r < 0x10000 then
    [UInt8.ofNat (0xE0 + r / 2 ^ 12), UInt8.ofNat (0x80 + r / 2 ^ 6 % 2 ^ 6),
      UInt8.ofNat (0x80 + r % 2 ^ 6)]
  else
    [UInt8.ofNat (0xF0 + r / 2 ^ 18), UInt8.ofNat (0x80 + r / 2 ^ 12 % 2 ^ 6),
      UInt8.ofNat (0x80 + r / 2 ^ 6 % 2 ^ 6), UInt8.ofNat (0x80 + r % 2 ^ 6)]

/-- strings.Map for a mapping that drops no rune. -/
def mapRunes (f : ℕ → ℕ) (s : Bytes) : Bytes := (runes s).flatMap fun r => encodeRune (f r)

/-! ## Reading -/

private theorem runesAfter_eq (k : ℕ) (s : Bytes) : runesAfter k s = runes (s.drop k) := by
  induction s generalizing k with
  | nil => cases k <;> rfl
  | cons b bs ih =>
    cases k with
    | zero => rfl
    | succ k => exact ih k

theorem runes_cons (b : UInt8) (bs : Bytes) :
    runes (b :: bs) = (decodeRune b bs).1 :: runes (bs.drop (decodeRune b bs).2) := by
  rw [← runesAfter_eq]
  rfl

theorem runes_cons_ascii {b : UInt8} (hb : b < 0x80) (bs : Bytes) :
    runes (b :: bs) = b.toNat :: runes bs := by
  rw [runes_cons, decodeRune, if_pos hb, List.drop_zero]

theorem contBits_eq_some {lo hi b : UInt8} {x : ℕ} (h : contBits lo hi b = some x) :
    lo.toNat ≤ b.toNat ∧ b.toNat ≤ hi.toNat ∧ x = b.toNat - 0x80 := by
  unfold contBits at h
  split_ifs at h with hr
  exact ⟨UInt8.le_iff_toNat_le.mp hr.1, UInt8.le_iff_toNat_le.mp hr.2, (Option.some.inj h).symm⟩

/-- The three kinds of lead bytes. The range of the second byte leaves out what has a shorter
sequence, the surrogates, and what is past the last code point. -/
theorem leadByte_eq_some {b lo hi : UInt8} {n : ℕ} (h : leadByte b = some (n, lo, hi)) :
    0x80 ≤ lo.toNat ∧ hi.toNat ≤ 0xBF ∧
      (n = 2 ∧ 0xC2 ≤ b.toNat ∧ b.toNat ≤ 0xDF ∨
        n = 3 ∧ 0xE0 ≤ b.toNat ∧ b.toNat ≤ 0xEF ∧ (b.toNat = 0xE0 → 0xA0 ≤ lo.toNat) ∧
          (b.toNat = 0xED → hi.toNat ≤ 0x9F) ∨
        n = 4 ∧ 0xF0 ≤ b.toNat ∧ b.toNat ≤ 0xF4 ∧ (b.toNat = 0xF0 → 0x90 ≤ lo.toNat) ∧
          (b.toNat = 0xF4 → hi.toNat ≤ 0x8F)) := by
  unfold leadByte at h
  simp only [UInt8.le_iff_toNat_le, ← UInt8.toNat_inj, UInt8.reduceToNat] at h
  split_ifs at h <;> cases h <;> simp <;> omega

/-! ### A rune from the bits of its bytes -/

private theorem encodeRune_two {a x : ℕ} (ha : 2 ≤ a) (ha' : a < 0x20) (hx : x < 0x40) :
    encodeRune (a * 2 ^ 6 + x) = [UInt8.ofNat (0xC0 + a), UInt8.ofNat (0x80 + x)] := by
  have hfirst : (a * 2 ^ 6 + x) / 2 ^ 6 = a := by omega
  have hsecond : (a * 2 ^ 6 + x) % 2 ^ 6 = x := by omega
  rw [encodeRune, if_neg (by omega), if_pos (by omega), hfirst, hsecond]

private theorem encodeRune_three {a x y : ℕ} (ha : a < 0x10) (hx : x < 0x40) (hy : y < 0x40)
    (hlong : a = 0 → 0x20 ≤ x) (hsurrogate : a = 0xD → x < 0x20) :
    encodeRune (a * 2 ^ 12 + x * 2 ^ 6 + y) =
      [UInt8.ofNat (0xE0 + a), UInt8.ofNat (0x80 + x), UInt8.ofNat (0x80 + y)] := by
  have hfirst : (a * 2 ^ 12 + x * 2 ^ 6 + y) / 2 ^ 12 = a := by omega
  have hsecond : (a * 2 ^ 12 + x * 2 ^ 6 + y) / 2 ^ 6 % 2 ^ 6 = x := by omega
  have hthird : (a * 2 ^ 12 + x * 2 ^ 6 + y) % 2 ^ 6 = y := by omega
  rw [encodeRune, if_neg (by omega), if_neg (by omega), if_neg (by omega), if_pos (by omega),
    hfirst, hsecond, hthird]

private theorem encodeRune_four {a x y z : ℕ} (ha : a ≤ 4) (hx : x < 0x40) (hy : y < 0x40)
    (hz : z < 0x40) (hlong : a = 0 → 0x10 ≤ x) (hlast : a = 4 → x < 0x10) :
    encodeRune (a * 2 ^ 18 + x * 2 ^ 12 + y * 2 ^ 6 + z) =
      [UInt8.ofNat (0xF0 + a), UInt8.ofNat (0x80 + x), UInt8.ofNat (0x80 + y),
        UInt8.ofNat (0x80 + z)] := by
  have hfirst : (a * 2 ^ 18 + x * 2 ^ 12 + y * 2 ^ 6 + z) / 2 ^ 18 = a := by omega
  have hsecond : (a * 2 ^ 18 + x * 2 ^ 12 + y * 2 ^ 6 + z) / 2 ^ 12 % 2 ^ 6 = x := by omega
  have hthird : (a * 2 ^ 18 + x * 2 ^ 12 + y * 2 ^ 6 + z) / 2 ^ 6 % 2 ^ 6 = y := by omega
  have hfourth : (a * 2 ^ 18 + x * 2 ^ 12 + y * 2 ^ 6 + z) % 2 ^ 6 = z := by omega
  rw [encodeRune, if_neg (by omega), if_neg (by omega), if_neg (by omega), if_neg (by omega),
    hfirst, hsecond, hthird, hfourth]

theorem ofNat_base_add {b : UInt8} {base : ℕ} (h : base ≤ b.toNat) :
    UInt8.ofNat (base + (b.toNat - base)) = b := by
  rw [Nat.add_sub_cancel' h, UInt8.ofNat_toNat]

/-- A sequence that is read as a rune is the one the rune is written as. -/
theorem encodeRune_of_decodeLong {b : UInt8} {rest : Bytes} {r k : ℕ}
    (h : decodeLong b rest = some (r, k)) : encodeRune r = b :: rest.take k := by
  unfold decodeLong at h
  split at h
  · next lo hi b1 bs hl =>
    obtain ⟨hlo, hhi, hn⟩ := leadByte_eq_some hl
    obtain ⟨x, hx, hr⟩ := Option.map_eq_some_iff.mp h
    obtain ⟨hx1, hx2, hx3⟩ := contBits_eq_some hx
    obtain ⟨rfl, rfl⟩ := Prod.mk.inj hr
    rw [encodeRune_two (by omega) (by omega) (by omega), hx3, ofNat_base_add (by omega),
      ofNat_base_add (by omega)]
    rfl
  · next lo hi b1 b2 bs hl =>
    obtain ⟨hlo, hhi, hn⟩ := leadByte_eq_some hl
    obtain ⟨x, hx, h⟩ := Option.bind_eq_some_iff.mp h
    obtain ⟨y, hy, hr⟩ := Option.map_eq_some_iff.mp h
    obtain ⟨hx1, hx2, hx3⟩ := contBits_eq_some hx
    obtain ⟨hy1, hy2, hy3⟩ := contBits_eq_some hy
    obtain ⟨rfl, rfl⟩ := Prod.mk.inj hr
    simp only [UInt8.reduceToNat] at hy1 hy2
    rw [encodeRune_three (by omega) (by omega) (by omega) (by omega) (by omega), hx3, hy3,
      ofNat_base_add (by omega), ofNat_base_add (by omega), ofNat_base_add (by omega)]
    rfl
  · next lo hi b1 b2 b3 bs hl =>
    obtain ⟨hlo, hhi, hn⟩ := leadByte_eq_some hl
    obtain ⟨x, hx, h⟩ := Option.bind_eq_some_iff.mp h
    obtain ⟨y, hy, h⟩ := Option.bind_eq_some_iff.mp h
    obtain ⟨z, hz, hr⟩ := Option.map_eq_some_iff.mp h
    obtain ⟨hx1, hx2, hx3⟩ := contBits_eq_some hx
    obtain ⟨hy1, hy2, hy3⟩ := contBits_eq_some hy
    obtain ⟨hz1, hz2, hz3⟩ := contBits_eq_some hz
    obtain ⟨rfl, rfl⟩ := Prod.mk.inj hr
    simp only [UInt8.reduceToNat] at hy1 hy2 hz1 hz2
    rw [encodeRune_four (by omega) (by omega) (by omega) (by omega) (by omega) (by omega), hx3,
      hy3, hz3, ofNat_base_add (by omega), ofNat_base_add (by omega), ofNat_base_add (by omega),
      ofNat_base_add (by omega)]
    rfl
  · cases h

theorem encodeRune_ascii {r : ℕ} (h : r < 0x80) : encodeRune r = [UInt8.ofNat r] := if_pos h

/-- The first rune is written as the bytes it was read from, unless they were invalid. -/
theorem encodeRune_decodeRune {b : UInt8} {bs : Bytes} (h : (decodeRune b bs).1 ≠ runeError) :
    encodeRune (decodeRune b bs).1 = b :: bs.take (decodeRune b bs).2 := by
  unfold decodeRune at h ⊢
  by_cases hb : b < 0x80
  · have hlt : b.toNat < 0x80 := UInt8.lt_iff_toNat_lt.mp hb
    rw [if_pos hb, encodeRune_ascii hlt, UInt8.ofNat_toNat, List.take_zero]
  · rw [if_neg hb] at h ⊢
    cases hl : decodeLong b bs with
    | none => rw [hl] at h; exact absurd rfl h
    | some q => exact encodeRune_of_decodeLong hl

/-- A string without invalid bytes or replacement characters is what its runes are written as. -/
theorem flatMap_encodeRune_runes {s : Bytes} (h : runeError ∉ runes s) :
    (runes s).flatMap encodeRune = s := by
  induction hn : s.length using Nat.strong_induction_on generalizing s with
  | _ n ih =>
    subst hn
    cases s with
    | nil => rfl
    | cons b bs =>
      rw [runes_cons] at h ⊢
      rw [List.mem_cons, not_or] at h
      obtain ⟨hhead, htail⟩ := h
      have hlt : (bs.drop (decodeRune b bs).2).length < (b :: bs).length := by
        rw [List.length_drop, List.length_cons]
        omega
      have hrest := ih _ hlt htail rfl
      rw [List.flatMap_cons, hrest, encodeRune_decodeRune (Ne.symm hhead), List.cons_append,
        List.take_append_drop]

/-! ## Writing -/

/-- What is not ASCII is not written in ASCII. -/
theorem exists_mem_encodeRune {r : ℕ} (h : 0x80 ≤ r) : ∃ c ∈ encodeRune r, 0x80 ≤ c := by
  have hlast : 0x80 ≤ UInt8.ofNat (0x80 + r % 2 ^ 6) := by
    have hlt : 0x80 + r % 2 ^ 6 < 2 ^ 8 := by omega
    rw [UInt8.le_iff_toNat_le, UInt8.toNat_ofNat_of_lt' hlt]
    exact Nat.le_add_right _ _
  unfold encodeRune
  rw [if_neg (not_lt.mpr h)]
  split_ifs
  · exact ⟨_, by simp, hlast⟩
  · exact ⟨0xEF, by simp, by decide⟩
  · exact ⟨_, by simp, hlast⟩
  · exact ⟨_, by simp, hlast⟩

/-- Runes are written as an ASCII string exactly when they are its bytes. -/
theorem flatMap_encodeRune_eq_iff {rs : List ℕ} {t : Bytes} (ht : ∀ c ∈ t, c < 0x80) :
    rs.flatMap encodeRune = t ↔ rs = t.map UInt8.toNat := by
  induction rs generalizing t with
  | nil =>
    rw [List.flatMap_nil]
    exact ⟨fun h => h ▸ rfl, fun h => (List.map_eq_nil_iff.mp h.symm).symm⟩
  | cons r rs ih =>
    rw [List.flatMap_cons]
    by_cases hr : r < 0x80
    · rw [encodeRune_ascii hr]
      cases t with
      | nil => simp
      | cons c t =>
        obtain ⟨hc, ht⟩ := List.forall_mem_cons.mp ht
        have hhead : UInt8.ofNat r = c ↔ r = c.toNat := by
          rw [← UInt8.toNat_inj, UInt8.toNat_ofNat_of_lt' (show r < 256 by omega)]
        rw [List.singleton_append, List.map_cons, List.cons.injEq, List.cons.injEq, ih ht, hhead]
    · obtain ⟨c, hmem, hc⟩ := exists_mem_encodeRune (not_lt.mp hr)
      constructor
      · intro h
        have hlt := ht c (h ▸ List.mem_append_left _ hmem)
        exact absurd hc (UInt8.not_le.mpr hlt)
      · intro h
        obtain ⟨d, hd, heq⟩ := List.mem_map.mp (h ▸ List.mem_cons_self : r ∈ t.map UInt8.toNat)
        have hlt := UInt8.lt_iff_toNat_lt.mp (ht d hd)
        exact absurd (heq ▸ hlt) hr

end GoLib
