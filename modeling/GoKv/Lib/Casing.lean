import GoKv.Lib.Unicode
import GoKv.Lib.Utf8

/-! What strings.ToUpper sends to a word of upper-case ASCII letters: the word in either case of
each letter, and the two letters from outside ASCII that have their upper case in it. -/
namespace GoLib

variable (f : UpperCasing)

/-- The rune by rune part of strings.ToUpper. -/
def UpperCasing.map (f : UpperCasing) : Bytes → Bytes := mapRunes f.rune

def IsUpper (c : UInt8) : Prop := 65 ≤ c ∧ c ≤ 90

instance : DecidablePred IsUpper := fun c => inferInstanceAs (Decidable (65 ≤ c ∧ c ≤ 90))

private theorem runes_ascii {s : Bytes} (h : ∀ c ∈ s, c < 0x80) : runes s = s.map UInt8.toNat := by
  induction s with
  | nil => rfl
  | cons b bs ih =>
    obtain ⟨hb, hbs⟩ := List.forall_mem_cons.mp h
    rw [runes_cons_ascii hb, ih hbs, List.map_cons]

theorem toNat_upperByte (c : UInt8) :
    (upperByte c).toNat = if 97 ≤ c.toNat ∧ c.toNat ≤ 122 then c.toNat - 32 else c.toNat := by
  unfold upperByte
  by_cases h : 97 ≤ c ∧ c ≤ 122
  · have hn : 97 ≤ c.toNat ∧ c.toNat ≤ 122 :=
      ⟨UInt8.le_iff_toNat_le.mp h.1, UInt8.le_iff_toNat_le.mp h.2⟩
    have h32 : (32 : UInt8) ≤ c := UInt8.le_iff_toNat_le.mpr (show 32 ≤ c.toNat by omega)
    rw [if_pos h, if_pos hn, UInt8.toNat_sub_of_le _ _ h32]
    rfl
  · have hn : ¬ (97 ≤ c.toNat ∧ c.toNat ≤ 122) :=
      fun hn => h ⟨UInt8.le_iff_toNat_le.mpr hn.1, UInt8.le_iff_toNat_le.mpr hn.2⟩
    rw [if_neg h, if_neg hn]

theorem toNat_lowerByte {c : UInt8} (h : IsUpper c) : (lowerByte c).toNat = c.toNat + 32 := by
  have hn : c.toNat ≤ 90 := UInt8.le_iff_toNat_le.mp h.2
  rw [lowerByte, if_pos (show 65 ≤ c ∧ c ≤ 90 from h), UInt8.toNat_add, Nat.mod_eq_of_lt]
  · rfl
  · change c.toNat + 32 < 2 ^ 8
    omega

theorem upperByte_eq_iff {b c : UInt8} (hc : IsUpper c) :
    upperByte b = c ↔ b = c ∨ b = lowerByte c := by
  have hn : 65 ≤ c.toNat ∧ c.toNat ≤ 90 :=
    ⟨UInt8.le_iff_toNat_le.mp hc.1, UInt8.le_iff_toNat_le.mp hc.2⟩
  rw [← UInt8.toNat_inj, ← UInt8.toNat_inj, ← UInt8.toNat_inj, toNat_upperByte, toNat_lowerByte hc]
  split_ifs <;> omega

private theorem upperByte_lt {c : UInt8} (h : c < 0x80) : upperByte c < 0x80 := by
  have hn : c.toNat < 128 := UInt8.lt_iff_toNat_lt.mp h
  rw [UInt8.lt_iff_toNat_lt, toNat_upperByte]
  change _ < 128
  split_ifs <;> omega

/-- The two ways strings.ToUpper goes agree where both apply. -/
theorem toUpper_map (s : Bytes) : toUpper f.map s = f.map s := by
  unfold toUpper
  by_cases h : s.all (· < 128) = true
  · have hs : ∀ c ∈ s, c < 0x80 := by simpa using h
    have ht : ∀ c ∈ s.map upperByte, c < 0x80 := by
      intro c hc
      obtain ⟨b, hb, rfl⟩ := List.mem_map.mp hc
      exact upperByte_lt (hs b hb)
    have hmap : (runes s).map f.rune = (s.map upperByte).map UInt8.toNat := by
      rw [runes_ascii hs, List.map_map, List.map_map]
      exact List.map_congr_left fun c hc => f.ascii c (hs c hc)
    rw [if_pos h, UpperCasing.map, mapRunes, ← List.flatMap_map,
      (flatMap_encodeRune_eq_iff ht).mpr hmap]
  · rw [if_neg h]

/-- The ways to spell an upper-case letter that strings.ToUpper undoes. -/
def spellings (c : UInt8) : List Bytes :=
  [c] :: [lowerByte c] ::
    (if c = 73 then [[0xC4, 0xB1]] else if c = 83 then [[0xC5, 0xBF]] else [])

/-- A string that spells a word, letter by letter. -/
inductive Spells : Bytes → Bytes → Prop where
  | nil : Spells [] []
  | cons {c : UInt8} {cs x s : Bytes} (hx : x ∈ spellings c) (hs : Spells cs s) :
      Spells (c :: cs) (x ++ s)

theorem IsUpper.lt {c : UInt8} (h : IsUpper c) : c < 0x80 := by
  have hn : c.toNat ≤ 90 := UInt8.le_iff_toNat_le.mp h.2
  exact UInt8.lt_iff_toNat_lt.mpr (show c.toNat < 128 by omega)

/-- Either ASCII case of each letter spells a word. -/
theorem spells_of_map {name s : Bytes} (hname : ∀ c ∈ name, IsUpper c)
    (h : s.map upperByte = name) : Spells name s := by
  induction s generalizing name with
  | nil =>
    subst h
    exact .nil
  | cons b bs ih =>
    subst h
    rw [List.map_cons] at hname ⊢
    obtain ⟨hc, hcs⟩ := List.forall_mem_cons.mp hname
    have hb : [b] ∈ spellings (upperByte b) := by
      rcases (upperByte_eq_iff hc).mp rfl with heq | heq
      · exact List.mem_cons.mpr (.inl (congrArg (fun c => [c]) heq))
      · exact List.mem_cons_of_mem _ (List.mem_cons.mpr (.inl (congrArg (fun c => [c]) heq)))
    exact .cons hb (ih hcs rfl)

/-- A rune whose upper case is a letter is written as one of the letter's spellings. -/
theorem encodeRune_mem_spellings {r : ℕ} {c : UInt8} (hc : IsUpper c)
    (h : f.rune r = c.toNat) : encodeRune r ∈ spellings c := by
  have hlt : c.toNat < 0x80 := UInt8.lt_iff_toNat_lt.mp hc.lt
  unfold spellings
  by_cases hr : r < 0x80
  · have hb : (UInt8.ofNat r).toNat = r := UInt8.toNat_ofNat_of_lt' (show r < 2 ^ 8 by omega)
    have hascii : UInt8.ofNat r < 0x80 := UInt8.lt_iff_toNat_lt.mpr (by rw [hb]; exact hr)
    have hup := f.ascii _ hascii
    rw [hb, h, UInt8.toNat_inj, eq_comm, upperByte_eq_iff hc] at hup
    rw [encodeRune_ascii hr]
    rcases hup with hup | hup
    · rw [hup]
      exact List.mem_cons_self
    · rw [hup]
      exact List.mem_cons_of_mem _ List.mem_cons_self
  · by_cases hi : r = 0x131
    · subst hi
      have h73 : c = 73 := UInt8.toNat_inj.mp (h.symm.trans f.dotlessI)
      subst h73
      decide
    · by_cases hs : r = 0x17F
      · subst hs
        have h83 : c = 83 := UInt8.toNat_inj.mp (h.symm.trans f.longS)
        subst h83
        decide
      · have hout := f.others r (not_lt.mp hr) hi hs
        omega

/-- A spelling of a letter is read as one rune, whose upper case is the letter. -/
theorem runes_spelling {c : UInt8} (hc : IsUpper c) {x : Bytes}
    (hx : x ∈ spellings c) (s : Bytes) :
    ∃ r, runes (x ++ s) = r :: runes s ∧ f.rune r = c.toNat := by
  have hbyte : ∀ b : UInt8, b < 0x80 → upperByte b = c →
      ∃ r, runes ([b] ++ s) = r :: runes s ∧ f.rune r = c.toNat := by
    intro b hb hup
    exact ⟨b.toNat, runes_cons_ascii hb s, by rw [f.ascii b hb, hup]⟩
  rcases List.mem_cons.mp hx with rfl | hx
  · exact hbyte c hc.lt ((upperByte_eq_iff hc).mpr (.inl rfl))
  rcases List.mem_cons.mp hx with rfl | hx
  · refine hbyte _ ?_ ((upperByte_eq_iff hc).mpr (.inr rfl))
    have hn : c.toNat ≤ 90 := UInt8.le_iff_toNat_le.mp hc.2
    rw [UInt8.lt_iff_toNat_lt, toNat_lowerByte hc]
    change c.toNat + 32 < 128
    omega
  · split_ifs at hx with h73 h83
    · rw [List.mem_singleton] at hx
      subst hx h73
      exact ⟨0x131, runes_cons _ _, f.dotlessI⟩
    · rw [List.mem_singleton] at hx
      subst hx h83
      exact ⟨0x17F, runes_cons _ _, f.longS⟩
    · cases hx

/-- strings.ToUpper gives a word of upper-case letters exactly for the strings that spell it. -/
theorem toUpper_eq_iff {name : Bytes} (hname : ∀ c ∈ name, IsUpper c)
    {s : Bytes} : toUpper f.map s = name ↔ Spells name s := by
  have hascii : ∀ c ∈ name, c < 0x80 := fun c hc => (hname c hc).lt
  rw [toUpper_map, UpperCasing.map, mapRunes, ← List.flatMap_map, flatMap_encodeRune_eq_iff hascii]
  constructor
  · intro h
    have hvalid : runeError ∉ runes s := by
      intro hmem
      have hin : f.rune runeError ∈ name.map UInt8.toNat := h ▸ List.mem_map_of_mem hmem
      obtain ⟨c, hc, heq⟩ := List.mem_map.mp hin
      have hlt := UInt8.lt_iff_toNat_lt.mp (hascii c hc)
      have hout := f.others runeError (by decide) (by decide) (by decide)
      change c.toNat < 128 at hlt
      omega
    rw [← flatMap_encodeRune_runes hvalid]
    generalize runes s = rs at h
    induction rs generalizing name with
    | nil =>
      have hnil : name = [] := List.map_eq_nil_iff.mp h.symm
      subst hnil
      exact .nil
    | cons r rs ih =>
      cases name with
      | nil => cases h
      | cons c cs =>
        rw [List.map_cons, List.map_cons] at h
        obtain ⟨hc, hcs⟩ := List.forall_mem_cons.mp hname
        obtain ⟨hr, hrs⟩ := List.cons.inj h
        have hrest := ih hcs (fun d hd => (hcs d hd).lt) hrs
        exact .cons (encodeRune_mem_spellings f hc hr) hrest
  · intro h
    induction h with
    | nil => rfl
    | @cons c cs x s hx _ ih =>
      obtain ⟨hc, hcs⟩ := List.forall_mem_cons.mp hname
      obtain ⟨r, hr, hup⟩ := runes_spelling f hc hx s
      rw [hr, List.map_cons, List.map_cons, hup, ih hcs (fun d hd => (hcs d hd).lt)]

/-- A word without the two exceptional letters is spelled by itself up to ASCII case alone. -/
theorem spells_iff_map {name : Bytes} (hname : ∀ c ∈ name, IsUpper c ∧ c ≠ 73 ∧ c ≠ 83)
    {s : Bytes} : Spells name s ↔ s.map upperByte = name := by
  constructor
  · intro h
    induction h with
    | nil => rfl
    | @cons c cs x s hx _ ih =>
      obtain ⟨⟨hc, hi, hs⟩, hcs⟩ := List.forall_mem_cons.mp hname
      rw [spellings, if_neg hi, if_neg hs] at hx
      rw [List.map_append, ih hcs]
      rcases List.mem_cons.mp hx with rfl | hx
      · rw [List.map_singleton, (upperByte_eq_iff hc).mpr (.inl rfl), List.singleton_append]
      · rw [List.mem_singleton.mp hx, List.map_singleton, (upperByte_eq_iff hc).mpr (.inr rfl),
          List.singleton_append]
  · exact spells_of_map fun c hc => (hname c hc).1

end GoLib
