import CodeScout.Util.GoString
import Mathlib.Data.Nat.Digits.Lemmas
import Mathlib.Tactic

/-!
# Decimal numbers and lines

The parts of Go's `strconv` and `strings` that read and write decimal
integers and split a text into lines: what `%d` prints of an `int`, what
`Atoi` accepts, and that the two are inverse to each other on a 64-bit
integer that is not negative (`atoi_formatInt`).
-/

/-- Whether a byte is a decimal digit. -/
def isDigit (c : UInt8) : Bool := 48 ≤ c.toNat && c.toNat ≤ 57

/-- The decimal digits of a number, most significant first. -/
def formatNat (n : ℕ) : GoString :=
  if n = 0 then [48] else (Nat.digits 10 n).reverse.map (fun d => UInt8.ofNat (48 + d))

/-- The number a sequence of decimal digits denotes. -/
def parseNat (digits : GoString) : ℕ :=
  digits.foldl (fun n c => 10 * n + (c.toNat - 48)) 0

/-- What `%d` prints. -/
def formatInt (i : ℤ) : GoString :=
  if i < 0 then lit "-" ++ formatNat i.natAbs else formatNat i.natAbs

/-- **`strconv.Atoi`** on a 64-bit machine: an optional sign and at least
one digit, the value in the range of an `int`. -/
def atoi (s : GoString) : Option Int64 :=
  let unsigned : GoString → ℤ → Option Int64 := fun digits sign =>
    let i := sign * (parseNat digits : ℤ)
    if digits.isEmpty || !digits.all isDigit then none
    else if -2 ^ 63 ≤ i ∧ i < 2 ^ 63 then some (Int64.ofInt i)
    else none
  match s with
  | 45 :: digits => unsigned digits (-1)
  | 43 :: digits => unsigned digits 1
  | digits => unsigned digits 1

/-! ## Reading back what was printed -/

theorem toNat_digit {d : ℕ} (h : d < 10) : (UInt8.ofNat (48 + d)).toNat = 48 + d := by
  rw [UInt8.toNat_ofNat']
  omega

theorem formatNat_isDigit (n : ℕ) : ∀ c ∈ formatNat n, isDigit c = true := by
  unfold formatNat
  by_cases hn : n = 0
  · rw [if_pos hn]
    intro c hc
    rw [List.mem_singleton.mp (show c ∈ [48] from hc)]
    rfl
  · rw [if_neg hn]
    simp only [List.mem_map, List.mem_reverse]
    rintro c ⟨d, hd, rfl⟩
    have hlt := Nat.digits_lt_base (by norm_num) hd
    simp only [isDigit, toNat_digit hlt, Bool.and_eq_true, decide_eq_true_eq]
    omega

theorem formatNat_ne_nil (n : ℕ) : formatNat n ≠ [] := by
  unfold formatNat
  by_cases hn : n = 0
  · rw [if_pos hn]
    simp
  · rw [if_neg hn]
    rw [Ne, List.map_eq_nil_iff, List.reverse_eq_nil_iff, Nat.digits_eq_nil_iff_eq_zero]
    exact hn

/-- **The digits of a number denote it.** -/
theorem parseNat_formatNat (n : ℕ) : parseNat (formatNat n) = n := by
  unfold formatNat
  by_cases hn : n = 0
  · rw [if_pos hn, hn]
    rfl
  · rw [if_neg hn]
    have hfold : ∀ ds : List ℕ, (∀ d ∈ ds, d < 10) →
        parseNat (ds.reverse.map (fun d => UInt8.ofNat (48 + d))) = Nat.ofDigits 10 ds := by
      intro ds hds
      unfold parseNat
      induction ds with
      | nil => rfl
      | cons d ds ih =>
        rw [List.reverse_cons, List.map_append, List.foldl_append,
          ih (fun e he => hds e (List.mem_cons_of_mem d he)), Nat.ofDigits_cons]
        simp only [List.map_cons, List.map_nil, List.foldl_cons, List.foldl_nil,
          toNat_digit (hds d List.mem_cons_self)]
        omega
    rw [hfold _ (fun d hd => Nat.digits_lt_base (by norm_num) hd), Nat.ofDigits_digits]

/-- **`Atoi` reads back what `%d` prints** of an `int` that is not
negative. -/
theorem atoi_formatInt (i : Int64) (h : 0 ≤ i.toInt) :
    atoi (formatInt i.toInt) = some i := by
  have hlt := i.toInt_lt
  have hcast : (i.toInt.natAbs : ℤ) = i.toInt := Int.natAbs_of_nonneg h
  have hdigits : (formatNat i.toInt.natAbs).all isDigit = true :=
    List.all_eq_true.mpr (formatNat_isDigit _)
  obtain ⟨c, cs, hcs⟩ := List.exists_cons_of_ne_nil (formatNat_ne_nil i.toInt.natAbs)
  have hc : isDigit c = true := formatNat_isDigit i.toInt.natAbs c (by simp [hcs])
  -- a digit is no sign
  have hsign : c ≠ 45 ∧ c ≠ 43 := by
    constructor <;> rintro rfl <;> exact absurd hc (by decide)
  have hfmt : formatInt i.toInt = c :: cs := by
    rw [formatInt, if_neg (not_lt.mpr h), hcs]
  have hval : parseNat (c :: cs) = i.toInt.natAbs := by
    rw [← hcs, parseNat_formatNat]
  unfold atoi
  rw [hcs] at hdigits
  rw [hfmt]
  split
  · rename_i digits heq
    exact absurd (List.cons.inj heq).1 hsign.1
  · rename_i digits heq
    exact absurd (List.cons.inj heq).1 hsign.2
  · simp only [hdigits, hval, hcast, List.isEmpty_cons, Bool.not_true, Bool.or_false,
      Bool.false_eq_true, if_false, one_mul]
    rw [if_pos ⟨by omega, hlt⟩, Int64.ofInt_toInt]

/-! ## Splitting at a byte -/

theorem not_mem_of_mem_splitOn {c : UInt8} {s text : GoString} (h : text ∈ s.splitOn c) :
    c ∉ text := by
  induction s generalizing text with
  | nil =>
    rw [List.splitOn_nil, List.mem_singleton] at h
    rw [h]
    exact List.not_mem_nil
  | cons b s ih =>
    rw [List.splitOn_cons_eq_if_modifyHead] at h
    split_ifs at h with hb
    · rcases List.mem_cons.mp h with rfl | h
      · exact List.not_mem_nil
      · exact ih h
    · obtain ⟨first, rest, hsplit⟩ := List.exists_cons_of_ne_nil (List.splitOn_ne_nil c s)
      rw [hsplit, List.modifyHead_cons] at h
      rcases List.mem_cons.mp h with rfl | h
      · have hfirst : c ∉ first := ih (hsplit ▸ List.mem_cons_self)
        rw [List.mem_cons, not_or]
        exact ⟨fun h => hb (beq_iff_eq.mpr h.symm), hfirst⟩
      · exact ih (hsplit ▸ List.mem_cons_of_mem _ h)

/-! ## Lines -/

/-- The bytes of a list of lines, each ended by a newline. -/
def joinLines (lines : List GoString) : GoString :=
  lines.flatMap (fun line => line ++ [10])

/-- **Splitting lines back**: where no line contains a newline, splitting
returns the lines and the empty text after the last newline. -/
theorem splitOn_joinLines (lines : List GoString) (h : ∀ line ∈ lines, 10 ∉ line) :
    (joinLines lines).splitOn 10 = lines ++ [[]] := by
  induction lines with
  | nil => rfl
  | cons line lines ih =>
    have hcons : joinLines (line :: lines) = line ++ 10 :: joinLines lines := by
      simp [joinLines]
    rw [hcons, List.splitOn_append_cons_self_of_not_mem (h line List.mem_cons_self),
      ih (fun l hl => h l (List.mem_cons_of_mem line hl)), List.cons_append]
