import CodeScout.Util.GoUnicode
import Mathlib.Data.List.Basic
import Mathlib.Tactic.Common

/-!
# Valid UTF-8

A string is valid if no rune of it is decoded from a byte that starts no
encoding. A valid string is the encoding of its runes, and no encoding of a
rune is the beginning of the encoding of another one.
-/

/-- **The bytes encode the rune**, and whatever follows them they are decoded
to it. -/
def Encodes (r : ℕ) (bytes : GoString) : Prop :=
  encodeRune r = bytes ∧ ∀ t, decodeRune (bytes ++ t) = (r, bytes.length)

theorem ofNat_eq_of_toNat {x : ℕ} {b : UInt8} (h : x = b.toNat) : UInt8.ofNat x = b := by
  rw [h, UInt8.ofNat_toNat]

theorem toNat_of_isContinuation {b : UInt8} (h : isContinuation b = true) :
    0x80 ≤ b.toNat ∧ b.toNat ≤ 0xBF := by
  unfold isContinuation at h
  rw [Bool.and_eq_true, decide_eq_true_eq, decide_eq_true_eq] at h
  exact ⟨UInt8.le_iff_toNat_le.mp h.1, UInt8.le_iff_toNat_le.mp h.2⟩

theorem toNat_of_isSecond {b₀ b₁ : UInt8} (h : isSecond b₀ b₁ = true) :
    0x80 ≤ b₁.toNat ∧ b₁.toNat ≤ 0xBF ∧ (b₀.toNat = 0xE0 → 0xA0 ≤ b₁.toNat)
      ∧ (b₀.toNat = 0xED → b₁.toNat ≤ 0x9F) ∧ (b₀.toNat = 0xF0 → 0x90 ≤ b₁.toNat)
      ∧ (b₀.toNat = 0xF4 → b₁.toNat ≤ 0x8F) := by
  simp only [isSecond, UInt8.le_iff_toNat_le, UInt8.toNat_inj.symm, Bool.and_eq_true,
    decide_eq_true_eq] at h
  obtain ⟨hlow, hhigh⟩ := h
  split_ifs at hlow hhigh <;> simp at * <;> omega

section encodes

variable {b₀ b₁ b₂ b₃ : UInt8}

theorem encodes_one (h : b₀ < 0x80) : Encodes b₀.toNat [b₀] := by
  have hlt : b₀.toNat < 0x80 := UInt8.lt_iff_toNat_lt.mp h
  refine ⟨?_, fun t => ?_⟩
  · rw [encodeRune, if_pos hlt, UInt8.ofNat_toNat]
  · simp [decodeRune, h]

theorem encodes_two (hone : ¬b₀ < 0x80) (hstart : ¬b₀ < 0xC2) (h : b₀ < 0xE0)
    (h₁ : isSecond b₀ b₁ = true) : Encodes (continueRune (b₀.toNat % 32) b₁) [b₀, b₁] := by
  have hb₁ := toNat_of_isSecond h₁
  have hmin : ¬b₀.toNat < 0xC2 := fun h => hstart (UInt8.lt_iff_toNat_lt.mpr h)
  have hmax : b₀.toNat < 0xE0 := UInt8.lt_iff_toNat_lt.mp h
  refine ⟨?_, fun t => ?_⟩
  · unfold encodeRune continueRune
    rw [if_neg (by omega), if_pos (by omega), ofNat_eq_of_toNat (b := b₀) (by omega),
      ofNat_eq_of_toNat (b := b₁) (by omega)]
  · simp [decodeRune, hone, hstart, h, h₁]

theorem encodes_three (hone : ¬b₀ < 0x80) (hstart : ¬b₀ < 0xC2) (htwo : ¬b₀ < 0xE0)
    (h : b₀ < 0xF0) (h₁ : isSecond b₀ b₁ = true) (h₂ : isContinuation b₂ = true) :
    Encodes (continueRune (continueRune (b₀.toNat % 16) b₁) b₂) [b₀, b₁, b₂] := by
  have hb₁ := toNat_of_isSecond h₁
  have hb₂ := toNat_of_isContinuation h₂
  have hmin : ¬b₀.toNat < 0xE0 := fun h => htwo (UInt8.lt_iff_toNat_lt.mpr h)
  have hmax : b₀.toNat < 0xF0 := UInt8.lt_iff_toNat_lt.mp h
  refine ⟨?_, fun t => ?_⟩
  · unfold encodeRune continueRune
    rw [if_neg (by omega), if_neg (by omega), if_neg (by simp; omega), if_pos (by omega),
      ofNat_eq_of_toNat (b := b₀) (by omega), ofNat_eq_of_toNat (b := b₁) (by omega),
      ofNat_eq_of_toNat (b := b₂) (by omega)]
  · simp [decodeRune, hone, hstart, htwo, h, h₁, h₂]

theorem encodes_four (hone : ¬b₀ < 0x80) (hstart : ¬b₀ < 0xC2) (htwo : ¬b₀ < 0xE0)
    (hthree : ¬b₀ < 0xF0) (h : ¬0xF4 < b₀) (h₁ : isSecond b₀ b₁ = true)
    (h₂ : isContinuation b₂ = true) (h₃ : isContinuation b₃ = true) :
    Encodes (continueRune (continueRune (continueRune (b₀.toNat % 8) b₁) b₂) b₃)
      [b₀, b₁, b₂, b₃] := by
  have hb₁ := toNat_of_isSecond h₁
  have hb₂ := toNat_of_isContinuation h₂
  have hb₃ := toNat_of_isContinuation h₃
  have hmin : ¬b₀.toNat < 0xF0 := fun h => hthree (UInt8.lt_iff_toNat_lt.mpr h)
  have hmax : ¬0xF4 < b₀.toNat := fun hlt => h (UInt8.lt_iff_toNat_lt.mpr hlt)
  refine ⟨?_, fun t => ?_⟩
  · unfold encodeRune continueRune
    rw [if_neg (by omega), if_neg (by omega), if_neg (by simp; omega), if_neg (by omega),
      ofNat_eq_of_toNat (b := b₀) (by omega), ofNat_eq_of_toNat (b := b₁) (by omega),
      ofNat_eq_of_toNat (b := b₂) (by omega), ofNat_eq_of_toNat (b := b₃) (by omega)]
  · simp [decodeRune, hone, hstart, htwo, hthree, h, h₁, h₂, h₃]

end encodes

/-- **A rune that is not an error was read from its encoding.** The cases are
those of the decoder. -/
theorem encodes_decodeRune {s : GoString} (h : s ≠ [])
    (hvalid : ¬((decodeRune s).1 = runeError ∧ (decodeRune s).2 = 1)) :
    Encodes (decodeRune s).1 (s.take (decodeRune s).2) := by
  revert hvalid
  fun_cases decodeRune s <;> intro hvalid
  all_goals try exact absurd ⟨rfl, rfl⟩ hvalid
  · exact absurd rfl h
  · exact encodes_one ‹_›
  · rename_i hone hstart _ _ h₁ hlead
    exact encodes_two hone hstart hlead
      (by simpa only [Bool.not_eq_true', Bool.not_eq_false] using h₁)
  · rename_i hone hstart _ h₁ htwo _ _ h₂ hlead
    exact encodes_three hone hstart htwo hlead
      (by simpa only [Bool.not_eq_true', Bool.not_eq_false] using h₁)
      (by simpa only [Bool.not_eq_true', Bool.not_eq_false] using h₂)
  · rename_i hone hstart _ h₁ htwo _ h₂ hthree _ _ hlead
    rw [Bool.or_eq_true, not_or, decide_eq_true_eq] at hlead
    exact encodes_four hone hstart htwo hthree hlead.1
      (by simpa only [Bool.not_eq_true', Bool.not_eq_false] using h₁)
      (by simpa only [Bool.not_eq_true', Bool.not_eq_false] using h₂)
      (by simpa only [Bool.not_eq_true', Bool.not_eq_false] using hlead.2)

/-- `utf8.ValidString`. -/
def validString (s : GoString) : Prop :=
  ∀ rune ∈ runes s, ¬(rune.value = runeError ∧ rune.width = 1)

instance (s : GoString) : Decidable (validString s) :=
  inferInstanceAs (Decidable (∀ rune ∈ runes s, ¬(rune.value = runeError ∧ rune.width = 1)))

/-- A rune that is decoded from its encoding. -/
def IsScalar (r : ℕ) : Prop :=
  Encodes r (encodeRune r)

/-- **A valid string is the encoding of its runes.** The induction is on the
length of the string. -/
theorem ofRunes_runes (n : ℕ) : ∀ {s : GoString}, s.length ≤ n → validString s →
    ofRunes ((runes s).map Rune.value) = s ∧ ∀ r ∈ (runes s).map Rune.value, IsScalar r := by
  induction n with
  | zero =>
    intro s hs _
    rw [List.length_eq_zero_iff.mp (Nat.le_zero.mp hs)]
    exact ⟨rfl, fun r hr => absurd hr List.not_mem_nil⟩
  | succ n ih =>
    intro s hs hvalid
    by_cases hnil : s = []
    · subst hnil
      exact ⟨rfl, fun r hr => absurd hr List.not_mem_nil⟩
    have hwidth := decodeRune_width hnil
    unfold validString at hvalid
    rw [runes_of_ne_nil hnil, List.forall_mem_cons] at hvalid
    rw [runes_of_ne_nil hnil, List.map_cons]
    have hfirst := encodes_decodeRune hnil hvalid.1
    have hlen : (s.drop (decodeRune s).2).length ≤ n := by
      rw [List.length_drop]
      omega
    obtain ⟨hrest, hscalar⟩ := ih hlen hvalid.2
    refine ⟨?_, List.forall_mem_cons.mpr ⟨?_, hscalar⟩⟩
    · rw [ofRunes, List.flatMap_cons, hfirst.1]
      show _ ++ ofRunes _ = s
      rw [hrest, List.take_append_drop]
    · show Encodes _ (encodeRune _)
      rw [hfirst.1]
      exact hfirst

theorem encodeRune_ne_nil (r : ℕ) : encodeRune r ≠ [] := by
  unfold encodeRune
  split_ifs <;> exact List.cons_ne_nil _ _

/-! ## A text after another -/

theorem tail_encodeRune (r : ℕ) : ∀ b ∈ (encodeRune r).tail, ¬b < 0x80 := by
  have hcontinues : ∀ x : ℕ, ¬UInt8.ofNat (0x80 + x % 64) < 0x80 := fun x => by
    rw [UInt8.lt_iff_toNat_lt, UInt8.toNat_ofNat']
    show ¬(0x80 + x % 64) % 256 < 0x80
    omega
  unfold encodeRune
  split_ifs <;> simp only [List.tail_cons, List.forall_mem_cons, hcontinues, not_false_eq_true,
    true_and, List.not_mem_nil, false_imp_iff, implies_true]
  decide

/-- A rune that is valid is read in the same way whatever follows. -/
theorem decodeRune_append {a u : GoString} (ha : a ≠ []) (hle : (decodeRune (a ++ u)).2 ≤ a.length)
    (hvalid : ¬((decodeRune (a ++ u)).1 = runeError ∧ (decodeRune (a ++ u)).2 = 1))
    (v : GoString) : decodeRune (a ++ v) = decodeRune (a ++ u) := by
  have hencodes := encodes_decodeRune (List.append_ne_nil_of_left_ne_nil ha u) hvalid
  rw [List.take_append_of_le_length hle] at hencodes
  have hread := hencodes.2 (a.drop (decodeRune (a ++ u)).2 ++ v)
  rw [← List.append_assoc, List.take_append_drop, List.length_take, Nat.min_eq_left hle] at hread
  exact hread

theorem decodeRune_append_of_valid {a : GoString} (ha : a ≠ [])
    (hvalid : ¬((decodeRune a).1 = runeError ∧ (decodeRune a).2 = 1)) (v : GoString) :
    decodeRune (a ++ v) = decodeRune a := by
  have hwidth := (decodeRune_width ha).2
  have happend := @decodeRune_append a [] ha
  rw [List.append_nil] at happend
  exact happend hwidth hvalid v

/-- Any rune is read in the same way if a rune of one byte follows. -/
theorem decodeRune_append_ascii {a : GoString} (ha : a ≠ []) {c : UInt8} (hc : c < 0x80)
    (b : GoString) : decodeRune (a ++ c :: b) = decodeRune a := by
  by_cases herror : (decodeRune a).1 = runeError ∧ (decodeRune a).2 = 1
  · by_cases hvalid : (decodeRune (a ++ c :: b)).1 = runeError ∧ (decodeRune (a ++ c :: b)).2 = 1
    · exact Prod.ext (hvalid.1.trans herror.1.symm) (hvalid.2.trans herror.2.symm)
    by_cases hle : (decodeRune (a ++ c :: b)).2 ≤ a.length
    · exact (decodeRune_append ha hle hvalid []).symm.trans
        (congrArg decodeRune (List.append_nil a))
    · -- a longer rune would go on with a byte that continues none
      have hencodes := (encodes_decodeRune (List.append_ne_nil_of_left_ne_nil ha _) hvalid).1
      refine absurd hc (tail_encodeRune (decodeRune (a ++ c :: b)).1 c ?_)
      rw [hencodes, List.mem_iff_getElem?]
      refine ⟨a.length - 1, ?_⟩
      rw [← List.drop_one, List.getElem?_drop, Nat.add_sub_of_le (List.length_pos_iff.mpr ha),
        List.getElem?_take_of_lt (Nat.not_le.mp hle), List.getElem?_append_right (Nat.le_refl _),
        Nat.sub_self]
      rfl
  · exact decodeRune_append_of_valid ha herror _

theorem runes_append_of {P : GoString → Prop} {b : GoString} (hP : ∀ a, a ≠ [] → P a →
      decodeRune (a ++ b) = decodeRune a ∧ P (a.drop (decodeRune a).2)) {a : GoString} (ha : P a) :
    runes (a ++ b) = runes a ++ runes b := by
  induction hn : a.length using Nat.strongRecOn generalizing a with
  | ind n ih =>
    by_cases hnil : a = []
    · rw [hnil]
      rfl
    have hwidth := decodeRune_width hnil
    have hlt : (a.drop (decodeRune a).2).length < n := by
      rw [List.length_drop]
      omega
    obtain ⟨hdecode, hrest⟩ := hP a hnil ha
    rw [runes_of_ne_nil hnil, runes_of_ne_nil (List.append_ne_nil_of_left_ne_nil hnil b), hdecode,
      List.drop_append_of_le_length hwidth.2, ih _ hlt hrest rfl]
    rfl

/-- **The runes of two texts**, if the second one starts with a rune of one byte. -/
theorem runes_append_ascii (a : GoString) {c : UInt8} (hc : c < 0x80) (b : GoString) :
    runes (a ++ c :: b) = runes a ++ ⟨c.toNat, 1⟩ :: runes b := by
  have hdecode : decodeRune (c :: b) = (c.toNat, 1) := if_pos hc
  have happend := @runes_append_of (fun _ => True) (c :: b)
    (fun a ha _ => ⟨decodeRune_append_ascii ha hc b, trivial⟩) a trivial
  rw [happend, runes_of_ne_nil (List.cons_ne_nil c b), hdecode]
  rfl

/-- **The runes of two texts**, if the first one is valid. -/
theorem runes_append_of_valid {a : GoString} (ha : validString a) (b : GoString) :
    runes (a ++ b) = runes a ++ runes b := by
  refine runes_append_of (fun a hne ha => ?_) ha
  unfold validString at ha
  rw [runes_of_ne_nil hne, List.forall_mem_cons] at ha
  exact ⟨decodeRune_append_of_valid hne ha.1 b, ha.2⟩
