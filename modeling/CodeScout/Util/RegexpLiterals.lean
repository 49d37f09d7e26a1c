import CodeScout.Util.GoUtf8
import CodeScout.Util.RegexpSyntax
import Mathlib

/-!
# Literals that all matches contain

The literals of a concatenation, of groups and of what is repeated at least
once are part of all matches of an expression (`Matches.hasLiteral`). A
literal that ignores case may stand for other characters than its runes, so
that the text of the literal need not be part of the matches; nor if it has
the error rune, which bytes that are no encoding are decoded to.
-/

namespace RegexpSyntax

open List

/-! ## Literals of an expression -/

mutual

/-- The literals that all matches contain, and whether they ignore case. -/
def guaranteed : Re → List (List ℕ × Bool)
  | .literal runes foldCase => [(runes, foldCase)]
  | .capture sub => guaranteed sub
  | .plus sub => guaranteed sub
  | .repeated min _ sub => if 1 ≤ min then guaranteed sub else []
  | .concat subs => guaranteedAll subs
  | _ => []

def guaranteedAll : List Re → List (List ℕ × Bool)
  | [] => []
  | sub :: subs => guaranteed sub ++ guaranteedAll subs

end

theorem guaranteed_subset_replicate {sub : Re} {n : ℕ} (hn : 1 ≤ n) :
    guaranteed sub ⊆ guaranteedAll (replicate n sub) := by
  obtain ⟨n, rfl⟩ := Nat.exists_eq_add_of_le' hn
  rw [replicate_succ, guaranteedAll]
  exact subset_append_left _ _

/-- The text has a part that the literal matches. -/
def HasLiteral (simpleFold : SimpleFold) (literal : List ℕ × Bool) (m : List Char) : Prop :=
  ∃ part, part <:+: m ∧ List.Forall₂ (RuneMatches simpleFold literal.2) literal.1 part

variable {simpleFold : SimpleFold} {literal : List ℕ × Bool}

theorem HasLiteral.mono {m m' : List Char}
    (h : HasLiteral simpleFold literal m) (hm : m <:+: m') : HasLiteral simpleFold literal m' := by
  obtain ⟨part, hpart, hmatch⟩ := h
  exact ⟨part, hpart.trans hm, hmatch⟩

/-- **All matches contain the literals.** The induction is on the match. -/
theorem Matches.hasLiteral {re : Re} {before m after : List Char}
    (h : Matches simpleFold re before m after) :
    ∀ literal ∈ guaranteed re, HasLiteral simpleFold literal m := by
  have hnone : ∀ {m : List Char}, ∀ literal ∈ ([] : List (List ℕ × Bool)),
      HasLiteral simpleFold literal m := fun _ hmem => absurd hmem not_mem_nil
  refine @Matches.rec simpleFold
    (fun re _ m _ _ => ∀ literal ∈ guaranteed re, HasLiteral simpleFold literal m)
    (fun res _ m _ _ => ∀ literal ∈ guaranteedAll res, HasLiteral simpleFold literal m)
    hnone ?literal (fun _ => hnone) (fun _ => hnone) hnone (fun _ => hnone) (fun _ => hnone)
    hnone hnone (fun _ => hnone) (fun _ => hnone) ?capture (fun _ _ _ => hnone) ?plus
    (fun _ _ _ _ => hnone) ?repeated ?concat (fun _ _ _ => hnone) hnone ?cons _ _ _ _ h
  case literal =>
    intro runes foldCase m before after hmatch literal hmem
    obtain rfl := mem_singleton.mp hmem
    exact ⟨m, infix_rfl, hmatch⟩
  case capture =>
    intro sub before m after _ ih
    exact ih
  case plus =>
    intro sub before m after n _ ih literal hmem
    exact ih literal (guaranteed_subset_replicate (Nat.succ_pos n) hmem)
  case repeated =>
    intro min max sub before m after n hmin hmax _ ih literal hmem
    rw [guaranteed] at hmem
    split_ifs at hmem with hone
    · exact ih literal (guaranteed_subset_replicate (hone.trans hmin) hmem)
    · exact absurd hmem not_mem_nil
  case concat =>
    intro subs before m after _ ih
    exact ih
  case cons =>
    intro re res before m₁ m₂ after _ _ ih ihs literal hmem
    rcases mem_append.mp hmem with hmem | hmem
    · exact (ih literal hmem).mono (prefix_append m₁ m₂).isInfix
    · exact (ihs literal hmem).mono (suffix_append m₁ m₂).isInfix

/-- A rune that stands for itself only. -/
def IsFixed (simpleFold : SimpleFold) (literal : List ℕ × Bool) (rune : ℕ) : Prop :=
  literal.2 = true → ∀ n, simpleFold^[n] rune = rune

theorem map_toNat_eq
    (hfixed : ∀ rune ∈ literal.1, IsFixed simpleFold literal rune) {part : List Char}
    (h : List.Forall₂ (RuneMatches simpleFold literal.2) literal.1 part) :
    part.map Char.toNat = literal.1 := by
  obtain ⟨runes, foldCase⟩ := literal
  dsimp only at hfixed h ⊢
  induction h with
  | nil => rfl
  | @cons rune c runes part hrune _ ih =>
    rw [forall_mem_cons] at hfixed
    have hc : c.toNat = rune := by
      rcases hrune with hc | ⟨hfold, n, hn⟩
      · exact hc
      · exact hn ▸ hfixed.1 hfold n
    rw [map_cons, hc, ih hfixed.2]

/-! ## Texts of bytes -/

/-- The values of the runes of a text. -/
def runeValues (text : GoString) : List ℕ := (runes text).map Rune.value

/-- The characters of a text, as the decoder reads them. -/
def chars (text : GoString) : List Char := (runeValues text).map Char.ofNat

theorem runeValues_of_ne_nil {s : GoString} (h : s ≠ []) :
    runeValues s = (decodeRune s).1 :: runeValues (s.drop (decodeRune s).2) := by
  rw [runeValues, runes_of_ne_nil h, map_cons]
  rfl

theorem toNat_ofNat {r : ℕ} (h : r.isValidChar) : (Char.ofNat r).toNat = r := by
  rw [Char.ofNat, dif_pos h]
  rfl

theorem isValidChar_of_encodes {r : ℕ} {bytes : GoString} (h : Encodes r bytes) :
    r.isValidChar := by
  obtain ⟨hencode, hdecode⟩ := h
  unfold encodeRune at hencode
  split_ifs at hencode with h₁ h₂ h₃ h₄
  · exact .inl (by omega)
  · exact .inl (by omega)
  · subst hencode
    have hr : (0xFFFD, 3) = (r, 3) := hdecode []
    rw [← (Prod.mk.inj hr).1]
    decide
  all_goals
    simp only [Bool.or_eq_true, Bool.and_eq_true, decide_eq_true_eq] at h₃
    unfold Nat.isValidChar
    omega

theorem isValidChar_decodeRune {s : GoString} (h : s ≠ []) : (decodeRune s).1.isValidChar := by
  by_cases herror : (decodeRune s).1 = runeError ∧ (decodeRune s).2 = 1
  · rw [herror.1]
    decide
  · exact isValidChar_of_encodes (encodes_decodeRune h herror)

theorem isValidChar_of_mem {r : ℕ} (n : ℕ) : ∀ {s : GoString}, s.length ≤ n → r ∈ runeValues s →
    r.isValidChar := by
  induction n with
  | zero =>
    intro s hs hr
    rw [length_eq_zero_iff.mp (Nat.le_zero.mp hs)] at hr
    exact absurd hr not_mem_nil
  | succ n ih =>
    intro s hs hr
    by_cases hnil : s = []
    · rw [hnil] at hr
      exact absurd hr not_mem_nil
    have hwidth := decodeRune_width hnil
    rw [runeValues_of_ne_nil hnil] at hr
    rcases mem_cons.mp hr with rfl | hr
    · exact isValidChar_decodeRune hnil
    · refine ih ?_ hr
      rw [length_drop]
      omega

theorem exists_append_of_runeValues {x t : List ℕ} : ∀ {s : GoString}, runeValues s = x ++ t →
    ∃ s₁ s₂, s = s₁ ++ s₂ ∧ runeValues s₂ = t := by
  induction x with
  | nil => exact fun h => ⟨[], _, rfl, h⟩
  | cons r x ih =>
    intro s h
    have hnil : s ≠ [] := by
      rintro rfl
      exact absurd h nofun
    rw [runeValues_of_ne_nil hnil, cons_append] at h
    obtain ⟨s₁, s₂, hs, hruneValues⟩ := ih (cons.inj h).2
    refine ⟨s.take (decodeRune s).2 ++ s₁, s₂, ?_, hruneValues⟩
    rw [append_assoc, ← hs, take_append_drop]

/-- **Runes other than the error rune are read from their encoding.** -/
theorem ofRunes_prefix {rs y : List ℕ} : ∀ {s : GoString}, runeValues s = rs ++ y →
    runeError ∉ rs → ofRunes rs <+: s := by
  induction rs with
  | nil => exact fun _ _ => nil_prefix
  | cons r rs ih =>
    intro s h herror
    rw [mem_cons, not_or] at herror
    have hnil : s ≠ [] := by
      rintro rfl
      exact absurd h nofun
    rw [runeValues_of_ne_nil hnil, cons_append] at h
    obtain ⟨hr, hrest⟩ := cons.inj h
    have hencodes := encodes_decodeRune hnil fun h => herror.1 (h.1.symm.trans hr)
    rw [hr] at hencodes
    obtain ⟨tail, htail⟩ := ih hrest herror.2
    refine ⟨tail, ?_⟩
    rw [ofRunes, flatMap_cons, hencodes.1, append_assoc]
    show _ ++ (ofRunes rs ++ tail) = s
    rw [htail, take_append_drop]

theorem ofRunes_infix {part : List Char} {text : GoString} (h : part <:+: chars text)
    (herror : runeError ∉ part.map Char.toNat) : ofRunes (part.map Char.toNat) <:+: text := by
  obtain ⟨u, w, huw⟩ := h
  rw [chars] at huw
  obtain ⟨xs, ys, hruneValues, hxs, -⟩ := map_eq_append_iff.mp huw.symm
  obtain ⟨x, rs, rfl, -, rfl⟩ := map_eq_append_iff.mp hxs
  have hpart : (rs.map Char.ofNat).map Char.toNat = rs := by
    rw [map_map]
    refine (map_congr_left fun r hr => ?_).trans (map_id rs)
    refine toNat_ofNat (isValidChar_of_mem text.length le_rfl ?_)
    rw [hruneValues]
    exact mem_append_left _ (mem_append_right _ hr)
  rw [hpart] at herror ⊢
  rw [append_assoc] at hruneValues
  obtain ⟨s₁, s₂, rfl, hs₂⟩ := exists_append_of_runeValues hruneValues
  obtain ⟨tail, rfl⟩ := ofRunes_prefix hs₂ herror
  exact ⟨s₁, tail, append_assoc _ _ _⟩

/-! ## Literals that stand for themselves -/

/-- **The text of the literal is part of all its matches**: none of its runes
has another case if case is ignored, or is what bytes that are no encoding are
decoded to. -/
def IsPlain (simpleFold : SimpleFold) (literal : List ℕ × Bool) : Prop :=
  runeError ∉ literal.1 ∧ ∀ rune ∈ literal.1, IsFixed simpleFold literal rune

theorem MatchesIn.ofRunes_infix {re : Re} {text : GoString}
    (h : MatchesIn simpleFold re (chars text))
    (hliteral : literal ∈ guaranteed re) (hplain : IsPlain simpleFold literal) :
    ofRunes literal.1 <:+: text := by
  obtain ⟨herror, hfixed⟩ := hplain
  obtain ⟨before, m, after, htext, hmatch⟩ := h
  obtain ⟨part, hpart, hrunes⟩ := hmatch.hasLiteral literal hliteral
  rw [← map_toNat_eq hfixed hrunes] at herror ⊢
  exact RegexpSyntax.ofRunes_infix (hpart.trans ⟨before, after, htext.symm⟩) herror

/-- A text that is put together from what runes are read from. -/
theorem runeValues_flatMap {enc : ℕ → GoString} {rs : List ℕ}
    (henc : ∀ r ∈ rs, enc r ≠ [] ∧ ∀ t, decodeRune (enc r ++ t) = (r, (enc r).length))
    (t : GoString) : runeValues (rs.flatMap enc ++ t) = rs ++ runeValues t := by
  induction rs with
  | nil => rfl
  | cons r rs ih =>
    rw [forall_mem_cons] at henc
    obtain ⟨⟨hne, hdecode⟩, henc⟩ := henc
    rw [flatMap_cons, append_assoc,
      runeValues_of_ne_nil (append_ne_nil_of_left_ne_nil hne _), hdecode,
      drop_left, ih henc, cons_append]

theorem runeValues_ofRunes {rs : List ℕ} (h : ∀ r ∈ rs, IsScalar r) (t : GoString) :
    runeValues (ofRunes rs ++ t) = rs ++ runeValues t :=
  runeValues_flatMap (fun r hr => ⟨encodeRune_ne_nil r, (h r hr).2⟩) t

theorem isContinuation_ofNat {x : ℕ} (hx : x < 256) :
    isContinuation (.ofNat x) = (decide (0x80 ≤ x) && decide (x ≤ 0xBF)) := by
  have htoNat : (UInt8.ofNat x).toNat = x := Nat.mod_eq_of_lt hx
  unfold isContinuation
  simp only [UInt8.le_iff_toNat_le, htoNat]
  rfl

/-- The first byte of an encoding is none that continues it, the others are. -/
theorem exists_lead (r : ℕ) : ∃ b bs, encodeRune r = b :: bs ∧ isContinuation b = false ∧
    ∀ c ∈ bs, isContinuation c = true := by
  have hcont : ∀ x, isContinuation (.ofNat (0x80 + x % 64)) = true := by
    intro x
    have hx := Nat.mod_lt x (by decide : 0 < 64)
    rw [isContinuation_ofNat (by omega), Bool.and_eq_true, decide_eq_true_eq, decide_eq_true_eq]
    omega
  have hlead : ∀ x, x < 256 → (x < 0x80 ∨ 0xBF < x) → isContinuation (.ofNat x) = false := by
    intro x hx hlead
    rw [isContinuation_ofNat hx, Bool.and_eq_false_iff, decide_eq_false_iff_not,
      decide_eq_false_iff_not, not_le, not_le]
    exact hlead
  unfold encodeRune
  split_ifs with h₁ h₂ h₃ h₄
  · exact ⟨_, _, rfl, hlead _ (by omega) (.inl h₁), nofun⟩
  · refine ⟨_, _, rfl, hlead _ (by omega) (.inr (by omega)), ?_⟩
    simp only [forall_mem_cons, hcont, true_and]
    exact nofun
  · exact ⟨_, _, rfl, by simp [isContinuation], by simp [isContinuation]⟩
  all_goals
    simp only [Bool.or_eq_true, Bool.and_eq_true, decide_eq_true_eq] at h₃
    refine ⟨_, _, rfl, hlead _ (by omega) (.inr (by omega)), ?_⟩
    simp only [forall_mem_cons, hcont, true_and]
    exact nofun

/-- **A text is part of another one from rune to rune.** It starts with a byte that
starts an encoding, so not within one. -/
theorem infix_of_ofRunes {xs ys : List ℕ} (hxs : ∀ r ∈ xs, IsScalar r)
    (hys : ∀ r ∈ ys, IsScalar r) (h : ofRunes xs <:+: ofRunes ys) : xs <:+: ys := by
  obtain ⟨front, back, hcut⟩ := h
  rw [append_assoc] at hcut
  cases xs with
  | nil => exact nil_infix
  | cons x xs =>
    obtain ⟨lead, rest, hx, hlead, -⟩ := exists_lead x
    induction ys generalizing front with
    | nil =>
      rw [ofRunes, flatMap_cons, hx] at hcut
      exact absurd (append_eq_nil_iff.mp hcut).2 (by simp)
    | cons y ys ih =>
      by_cases hfront : front = []
      · -- the runes are read from the start
        have hvalues := runeValues_ofRunes hxs back
        rw [hfront, nil_append] at hcut
        rw [hcut, ← append_nil (ofRunes (y :: ys)), runeValues_ofRunes hys,
          show runeValues [] = [] from rfl, append_nil] at hvalues
        exact ⟨[], runeValues back, hvalues.symm⟩
      · have hskip : ∀ front', front' ++ (ofRunes (x :: xs) ++ back) = ofRunes ys →
            (x :: xs) <:+: y :: ys := fun front' h =>
          (ih (fun r hr => hys r (mem_cons_of_mem y hr)) front' h).trans
            (suffix_cons y ys).isInfix
        obtain ⟨b, bs, hy, -, hbs⟩ := exists_lead y
        rw [show ofRunes (y :: ys) = encodeRune y ++ ofRunes ys from flatMap_cons] at hcut
        obtain ⟨cut, hcutY, hrest⟩ | ⟨cut, -, hrest⟩ := append_eq_append_iff.mp hcut
        · cases cut with
          | nil => exact hskip [] hrest
          | cons d cut =>
            obtain ⟨c, front, rfl⟩ := exists_cons_of_ne_nil hfront
            rw [hy, cons_append] at hcutY
            rw [ofRunes, flatMap_cons, hx] at hrest
            have hd := hbs d ((cons.inj hcutY).2 ▸ mem_append_right front mem_cons_self)
            rw [← (cons.inj hrest).1, hlead] at hd
            exact absurd hd Bool.false_ne_true
        · exact hskip cut hrest.symm

theorem encodes_ofNat {r : ℕ} (h : r < 0x80) : Encodes r [.ofNat r] := by
  have hr : (UInt8.ofNat r).toNat = r := Nat.mod_eq_of_lt (by omega)
  have hencodes := @encodes_one (.ofNat r) (UInt8.lt_iff_toNat_lt.mpr (by rw [hr]; exact h))
  rwa [hr] at hencodes

theorem isScalar_of_lt {r : ℕ} (h : r < 0x80) : IsScalar r := by
  rw [IsScalar, (encodes_ofNat h).1]
  exact encodes_ofNat h

theorem runeMatches_of_runeValues {runes : List ℕ} {foldCase : Bool} {text : GoString}
    (value : ℕ → ℕ) (hvalues : runeValues text = runes.map value)
    (h : ∀ rune ∈ runes, IsScalar (value rune) ∧
      (value rune = rune ∨ foldCase = true ∧ ∃ n, simpleFold^[n] rune = value rune)) :
    List.Forall₂ (RuneMatches simpleFold foldCase) runes (chars text) := by
  rw [chars, hvalues, forall₂_map_right_iff, forall₂_map_right_iff, forall₂_same]
  intro rune hrune
  obtain ⟨hscalar, hmatch⟩ := h rune hrune
  unfold RuneMatches
  rwa [toNat_ofNat (isValidChar_of_encodes hscalar)]

/-- The runes, but with a byte that is no encoding for the error rune. -/
def brokenBytes (r : ℕ) : GoString :=
  if r = runeError then [0x80] else encodeRune r

theorem length_flatMap_brokenBytes (rs : List ℕ) :
    (rs.flatMap brokenBytes).length + 2 * rs.count runeError = (ofRunes rs).length := by
  induction rs with
  | nil => rfl
  | cons r rs ih =>
    rw [ofRunes] at ih ⊢
    rw [flatMap_cons, flatMap_cons, length_append, length_append, ← ih, count_cons, brokenBytes]
    by_cases hr : r = runeError
    · subst hr
      rw [if_pos rfl, if_pos (beq_self_eq_true _)]
      have hthree : (encodeRune runeError).length = 3 := by decide
      rw [hthree, length_singleton]
      omega
    · rw [if_neg hr, if_neg (by simpa using hr)]
      omega

theorem exists_text_of_runeError (hscalar : ∀ r ∈ literal.1, IsScalar r)
    (herror : runeError ∈ literal.1) (c : UInt8) :
    ∃ text, List.Forall₂ (RuneMatches simpleFold literal.2) literal.1 (chars text) ∧
      ¬ofRunes literal.1 <:+: c :: text := by
  refine ⟨literal.1.flatMap brokenBytes, ?_, fun hwithin => ?_⟩
  · refine runeMatches_of_runeValues id ?_ fun r hr => ⟨hscalar r hr, .inl rfl⟩
    have hdecode : ∀ r ∈ literal.1, brokenBytes r ≠ [] ∧
        ∀ t, decodeRune (brokenBytes r ++ t) = (r, (brokenBytes r).length) := by
      intro r hr
      unfold brokenBytes
      split_ifs with h
      · exact ⟨cons_ne_nil _ _, fun t => by simp [decodeRune, h]⟩
      · exact ⟨encodeRune_ne_nil r, (hscalar r hr).2⟩
    have hvalues := runeValues_flatMap hdecode []
    rw [append_nil, show runeValues [] = [] from rfl, append_nil] at hvalues
    rw [hvalues, map_id]
  · have hle := hwithin.length_le
    have hlength := length_flatMap_brokenBytes literal.1
    have hcount := count_pos_iff.mpr herror
    rw [length_cons] at hle
    omega

variable {c : ℕ}

/-- A rune that is not fixed matches another one, so that a text with the
other one in its place matches the literal. -/
theorem exists_text_of_not_isFixed (hc : c < 0x80) (hscalar : ∀ r ∈ literal.1, IsScalar r)
    (hfold : ∀ r, IsScalar r → IsScalar (simpleFold r))
    (hhead : literal.1.head? ≠ some c) {rune : ℕ} (hrune : rune ∈ literal.1)
    (hfixed : ¬IsFixed simpleFold literal rune) :
    ∃ text, List.Forall₂ (RuneMatches simpleFold literal.2) literal.1 (chars text) ∧
      ¬ofRunes literal.1 <:+: .ofNat c :: text := by
  unfold IsFixed at hfixed
  push Not at hfixed
  obtain ⟨hignore, n, hn⟩ := hfixed
  have hother : ∀ n, IsScalar (simpleFold^[n] rune) := fun n =>
    Function.Iterate.rec IsScalar (hscalar rune hrune) hfold n
  let value r := if r = rune then simpleFold^[n] rune else r
  have hvalue : ∀ r ∈ literal.1, IsScalar (value r) := by
    intro r hr
    show IsScalar (if r = rune then simpleFold^[n] rune else r)
    split_ifs
    · exact hother n
    · exact hscalar r hr
  have hscalars : ∀ r ∈ literal.1.map value, IsScalar r := by
    rw [forall_mem_map]
    exact hvalue
  refine ⟨ofRunes (literal.1.map value), ?_, fun hwithin => ?_⟩
  · refine runeMatches_of_runeValues value ?_ fun r hr => ⟨hvalue r hr, ?_⟩
    · have hvalues := runeValues_ofRunes hscalars []
      rwa [append_nil, show runeValues [] = [] from rfl, append_nil] at hvalues
    · show (if r = rune then _ else r) = r ∨ _ ∧ ∃ k, _ = if r = rune then _ else r
      split_ifs with hr
      · exact .inr ⟨hignore, n, by rw [hr]⟩
      · exact .inl rfl
  · have hcons : .ofNat c :: ofRunes (literal.1.map value)
        = ofRunes (c :: literal.1.map value) := by
      rw [ofRunes, ofRunes, flatMap_cons, (encodes_ofNat hc).1, singleton_append]
    rw [hcons] at hwithin
    obtain hstart | hwithin := infix_cons_iff.mp (infix_of_ofRunes hscalar
      (forall_mem_cons.mpr ⟨isScalar_of_lt hc, hscalars⟩) hwithin)
    · obtain ⟨r, rs, heq⟩ := exists_cons_of_ne_nil (ne_nil_of_mem hrune)
      rw [heq] at hstart hhead
      exact hhead (congrArg some (cons_prefix_cons.mp hstart).1)
    · have heq := hwithin.eq_of_length (length_map _).symm
      rw [heq] at hrune
      obtain ⟨r, -, hr⟩ := mem_map.mp hrune
      have hne : value r ≠ rune := by
        show (if r = rune then _ else r) ≠ rune
        split_ifs with h
        · exact hn
        · exact h
      exact hne hr

/-- **A literal that is not plain matches a text without its own text**, also if
another character comes before it. -/
theorem exists_text_of_not_isPlain (hc : c < 0x80) (hscalar : ∀ r ∈ literal.1, IsScalar r)
    (hfold : ∀ r, IsScalar r → IsScalar (simpleFold r))
    (hhead : literal.1.head? ≠ some c) (h : ¬IsPlain simpleFold literal) :
    ∃ text, List.Forall₂ (RuneMatches simpleFold literal.2) literal.1 (chars text) ∧
      ¬ofRunes literal.1 <:+: .ofNat c :: text := by
  by_cases herror : runeError ∈ literal.1
  · exact exists_text_of_runeError hscalar herror _
  · unfold IsPlain at h
    rw [not_and] at h
    obtain ⟨rune, hrune⟩ := not_forall.mp (h herror)
    obtain ⟨hmem, hfixed⟩ := Classical.not_imp.mp hrune
    exact exists_text_of_not_isFixed hc hscalar hfold hhead hmem hfixed

theorem chars_cons (hc : c < 0x80) (text : GoString) :
    chars (.ofNat c :: text) = Char.ofNat c :: chars text := by
  rw [chars, runeValues_of_ne_nil (cons_ne_nil _ _)]
  have hdecode := (encodes_ofNat hc).2 text
  rw [singleton_append] at hdecode
  rw [hdecode]
  rfl

end RegexpSyntax
