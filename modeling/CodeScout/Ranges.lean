import CodeScout.Util.GoSlice
import CodeScout.Util.GoStrconv
import CodeScout.Util.GoVarint

/-!
# Encoding ranges

The ranges of a document are stored as bytes. A range has four components,
and the encoder stores the components of all ranges one after the other: the
start lines, the start characters, and the distances to the end lines and to
the end characters. Of each component it stores the difference to the one of
the range before, so that most numbers are small and many are zero; it
reverses the last quarter, so that the zeros at its end come next to those
of the third; and it writes a run of zeros as its length.

All differences are taken modulo `2 ^ 32`, so that nothing is lost, whatever
the components are (`decodeFlattenedRanges_encodeRanges`).
-/

namespace Ranges

open GoSlice List

/-- The result of a function that may return an error. -/
abbrev Result := Outcome GoString

/-! ## Bytes -/

open Outcome

mutual
/-- **`writeVarints`**, as the loop goes on with the given values. -/
def writeVarints : List Int32 → GoString
  | [] => []
  | value :: values =>
    if value = 0 then writeZeros 1 values
    else appendVarint value.toInt ++ writeVarints values
/-- The loop over a run of zeros, of which `run` were seen. -/
def writeZeros (run : ℕ) : List Int32 → GoString
  | [] => appendVarint 0 ++ appendVarint run
  | value :: values =>
    if value = 0 then writeZeros (run + 1) values
    else
      appendVarint 0 ++ (appendVarint run ++ (appendVarint value.toInt ++ writeVarints values))
end

/-- **`readVarint32`**: a number and the bytes that are left, or nothing at
their end. -/
def readVarint32 (r : GoString) : Except GoString (Option (Int32 × GoString)) :=
  match readVarint r with
  | .ok (value, r) => .ok (some (.ofInt value, r))
  | .error .eof => .ok none
  | .error e => .error e.message

/-- The loop of `readVarints`. -/
def readVarintsFrom : ℕ → GoString → List Int32 → Result (List Int32)
  | 0, _, _ => .outOfFuel
  | fuel + 1, r, values =>
    match readVarint32 r with
    | .error e => .error e
    | .ok none => .ok values
    | .ok (some (value, r)) =>
      if value ≠ 0 then readVarintsFrom fuel r (values ++ [value])
      else
        match readVarint32 r with
        | .error e => .error e
        | .ok none => .error (lit "expected length for run of zero values")
        | .ok (some (count, r)) =>
          readVarintsFrom fuel r (values ++ List.replicate count.toInt.toNat 0)

/-- **`readVarints`.** Each iteration but the last reads a byte. -/
def readVarints (r : GoString) : Result (List Int32) :=
  readVarintsFrom (r.length + 1) r []

/-! ## Components -/

/-- The components of a range as they are stored: where it starts, and the
distances to where it ends. -/
structure Components where
  startLine : Int32 := 0
  startCharacter : Int32 := 0
  lineDistance : Int32 := 0
  characterDistance : Int32 := 0
deriving DecidableEq, Repr

/-- The components of the range at an offset. -/
def componentsAt (values : List Int32) (offset : ℕ) : Result Components := do
  let startLine ← index values offset
  let startCharacter ← index values (offset + 1)
  let endLine ← index values (offset + 2)
  let endCharacter ← index values (offset + 3)
  return ⟨startLine, startCharacter, endLine - startLine, endCharacter - startCharacter⟩

/-- The offsets of the quarters of `n` values. -/
def quarterOffset (n : ℕ) (quarter : Fin 4) : ℕ := n / 4 * quarter

/-- The components of the range before, or zeros in front of the first one. -/
def previousComponents (values : List Int32) (rangeIndex : ℕ) : Result Components :=
  if rangeIndex ≠ 0 then componentsAt values ((rangeIndex - 1) * 4) else .ok {}

/-- An iteration of the loop of `EncodeRanges`. -/
def storeDeltas (values shuffled : List Int32) (rangeIndex : ℕ) : Result (List Int32) := do
  let n := values.length
  let current ← componentsAt values (rangeIndex * 4)
  let previous ← previousComponents values rangeIndex
  let shuffled ← store shuffled (quarterOffset n 0 + rangeIndex)
    (current.startLine - previous.startLine)
  let shuffled ← store shuffled (quarterOffset n 1 + rangeIndex)
    (current.startCharacter - previous.startCharacter)
  let shuffled ← store shuffled (quarterOffset n 2 + rangeIndex)
    (current.lineDistance - previous.lineDistance)
  store shuffled (quarterOffset n 3 + rangeIndex)
    (current.characterDistance - previous.characterDistance)

/-- The loop of `EncodeRanges`, with the number of ranges that are left. -/
def shuffleFrom (values : List Int32) : ℕ → ℕ → List Int32 → Result (List Int32)
  | 0, _, shuffled => .ok shuffled
  | count + 1, rangeIndex, shuffled => do
    let shuffled ← storeDeltas values shuffled rangeIndex
    shuffleFrom values count (rangeIndex + 1) shuffled

/-- The loop that reverses the last quarter. -/
def reverseLastQuarter (values : List Int32) : Result (List Int32) :=
  swapEnds (values.length + 1) (quarterOffset values.length 3) (values.length - 1) values

/-- **`EncodeRanges`.** -/
def encodeRanges (values : List Int32) : Result GoString :=
  let n := values.length
  if n = 0 then .ok []
  else if n % 4 ≠ 0 then
    .error (lit "unexpected range length - have " ++ formatNat n
      ++ lit " but expected a multiple of 4")
  else do
    let shuffled ← shuffleFrom values (n / 4) 0 (List.replicate n 0)
    return writeVarints (← reverseLastQuarter shuffled)

/-! ## Decoding -/

/-- An iteration of the loop of `decodeRangesFromReader`: the components of
the next range, and what is appended for it. -/
def addDeltas (values : List Int32) (i : ℕ) (previous : Components) :
    Result (Components × List Int32) := do
  let n := values.length
  let startLine ← index values (quarterOffset n 0 + i)
  let startCharacter ← index values (quarterOffset n 1 + i)
  let lineDistance ← index values (quarterOffset n 2 + i)
  let characterDistance ← index values (quarterOffset n 3 + i)
  let current : Components :=
    ⟨previous.startLine + startLine, previous.startCharacter + startCharacter,
      previous.lineDistance + lineDistance, previous.characterDistance + characterDistance⟩
  return (current, [current.startLine, current.startCharacter,
    current.startLine + current.lineDistance,
    current.startCharacter + current.characterDistance])

/-- The loop of `decodeRangesFromReader`, with the number of ranges that are
left. -/
def combineFrom (values : List Int32) :
    ℕ → ℕ → Components → List Int32 → Result (List Int32)
  | 0, _, _, combined => .ok combined
  | count + 1, i, previous, combined => do
    let (current, range) ← addDeltas values i previous
    combineFrom values count (i + 1) current (combined ++ range)

/-- **`decodeRangesFromReader`.** -/
def decodeRangesFromReader (r : GoString) : Result (List Int32) := do
  let values ← readVarints r
  let n := values.length
  if n % 4 ≠ 0 then
    .error (lit "unexpected number of encoded deltas - have " ++ formatNat n
      ++ lit " but expected a multiple of 4")
  else
    let values ← reverseLastQuarter values
    combineFrom values (n / 4) 0 {} []

/-- **`DecodeFlattenedRanges`.** -/
def decodeFlattenedRanges (encoded : GoString) : Result (List Int32) :=
  if encoded.length = 0 then .ok [] else decodeRangesFromReader encoded

/-! ## Reading the bytes that were written -/

theorem readVarint32_appendVarint {x : ℤ} (hle : -2 ^ 31 ≤ x) (hlt : x < 2 ^ 31) (r : GoString) :
    readVarint32 (appendVarint x ++ r) = .ok (some (.ofInt x, r)) := by
  rw [readVarint32, readVarint_appendVarint (by omega) (by omega)]

theorem readVarint32_value (value : Int32) (r : GoString) :
    readVarint32 (appendVarint value.toInt ++ r) = .ok (some (value, r)) := by
  rw [readVarint32_appendVarint value.le_toInt value.toInt_lt, Int32.ofInt_toInt]

theorem length_of_readVarint32 {r r' : GoString} {value : Int32}
    (h : readVarint32 r = .ok (some (value, r'))) : r'.length < r.length := by
  rw [readVarint32] at h
  split at h
  · next hread =>
    cases h
    exact length_of_readVarint hread
  · cases h
  · cases h

theorem readVarintsFrom_value {value : Int32} (hvalue : value ≠ 0) {r r' : GoString}
    (hread : readVarint32 r = .ok (some (value, r'))) (fuel : ℕ) (acc : List Int32) :
    readVarintsFrom (fuel + 1) r acc = readVarintsFrom fuel r' (acc ++ [value]) := by
  rw [readVarintsFrom, hread]
  exact if_pos hvalue

theorem readVarintsFrom_zeros {run : ℕ} (hrun : run < 2 ^ 31) (fuel : ℕ) (r : GoString)
    (acc : List Int32) :
    readVarintsFrom (fuel + 1) (appendVarint 0 ++ (appendVarint run ++ r)) acc
      = readVarintsFrom fuel r (acc ++ replicate run 0) := by
  have hzero := readVarint32_value 0 (appendVarint run ++ r)
  rw [Int32.toInt_zero] at hzero
  have hcount : (Int32.ofInt run).toInt.toNat = run := by
    rw [Int32.toInt_ofInt_of_le (by omega) (by omega), Int.toNat_natCast]
  rw [readVarintsFrom, hzero]
  dsimp only
  rw [if_neg (not_not_intro rfl), readVarint32_appendVarint (by omega) (by omega)]
  dsimp only
  rw [hcount]

theorem readVarintsFrom_end {fuel : ℕ} (hfuel : 0 < fuel) (acc : List Int32) :
    readVarintsFrom fuel [] acc = .ok acc := by
  obtain ⟨fuel, rfl⟩ := Nat.exists_eq_succ_of_ne_zero hfuel.ne'
  rfl

theorem length_append (x : ℤ) (r : GoString) : r.length < (appendVarint x ++ r).length := by
  rw [appendVarint, appendUvarint, appendUvarintUpTo, List.length_append]
  split_ifs <;> simp

/-- **Reading what was written**, from any point of the loop on. -/
theorem readVarintsFrom_writeVarints (values : List Int32) :
    (∀ fuel acc, values.length < 2 ^ 31 → (writeVarints values).length < fuel →
      readVarintsFrom fuel (writeVarints values) acc = .ok (acc ++ values))
    ∧ ∀ run fuel acc, run + values.length < 2 ^ 31 → (writeZeros run values).length < fuel →
      readVarintsFrom fuel (writeZeros run values) acc
        = .ok (acc ++ (replicate run 0 ++ values)) := by
  induction values with
  | nil =>
    refine ⟨fun fuel acc _ hfuel => ?_, fun run fuel acc hrun hfuel => ?_⟩
    · rw [writeVarints, readVarintsFrom_end (Nat.zero_lt_of_lt hfuel), append_nil]
    · rw [writeZeros] at hfuel ⊢
      obtain ⟨fuel, rfl⟩ := Nat.exists_eq_succ_of_ne_zero (Nat.ne_zero_of_lt hfuel)
      have hzeros := readVarintsFrom_zeros (show run < 2 ^ 31 from hrun) fuel [] acc
      have hpos := length_append 0 (appendVarint run)
      rw [append_nil] at hzeros
      rw [hzeros, readVarintsFrom_end (by omega), append_nil]
  | cons value values ih =>
    rw [length_cons]
    refine ⟨fun fuel acc hlen hfuel => ?_, fun run fuel acc hrun hfuel => ?_⟩
    · rw [writeVarints] at hfuel ⊢
      split at hfuel
      · next hvalue =>
        rw [if_pos hvalue, ih.2 1 fuel acc (by omega) hfuel, hvalue]
        rfl
      · next hvalue =>
        obtain ⟨fuel, rfl⟩ := Nat.exists_eq_succ_of_ne_zero (Nat.ne_zero_of_lt hfuel)
        have hpos := length_append value.toInt (writeVarints values)
        rw [if_neg hvalue, readVarintsFrom_value hvalue (readVarint32_value value _),
          ih.1 fuel _ (by omega) (by omega), append_assoc, singleton_append]
    · rw [writeZeros] at hfuel ⊢
      split at hfuel
      · next hvalue =>
        rw [if_pos hvalue, ih.2 (run + 1) fuel acc (by omega) hfuel, hvalue,
          replicate_succ', append_assoc, singleton_append]
      · next hvalue =>
        obtain ⟨fuel, rfl⟩ := Nat.exists_eq_succ_of_ne_zero (Nat.ne_zero_of_lt hfuel)
        have hzero := length_append 0
          (appendVarint run ++ (appendVarint value.toInt ++ writeVarints values))
        have hrun' := length_append run (appendVarint value.toInt ++ writeVarints values)
        have hvalue' := length_append value.toInt (writeVarints values)
        obtain ⟨fuel, rfl⟩ : ∃ fuel', fuel = fuel' + 1 :=
          Nat.exists_eq_succ_of_ne_zero (by omega)
        rw [if_neg hvalue, readVarintsFrom_zeros (by omega),
          readVarintsFrom_value hvalue (readVarint32_value value _),
          ih.1 fuel _ (by omega) (by omega)]
        simp only [append_assoc, singleton_append]

theorem readVarints_writeVarints {values : List Int32} (h : values.length < 2 ^ 31) :
    readVarints (writeVarints values) = .ok values :=
  (readVarintsFrom_writeVarints values).1 _ [] h (Nat.lt_succ_self _)

/-! ## Reversing twice -/

theorem quarterOffset_lt {n i : ℕ} (hi : i < n / 4) (q : Fin 4) : quarterOffset n q + i < n := by
  have hq : n / 4 * q ≤ n / 4 * 3 := Nat.mul_le_mul_left _ (Nat.le_of_lt_succ q.isLt)
  unfold quarterOffset
  omega

theorem quarterOffset_le (n : ℕ) (q : Fin 4) : quarterOffset n q ≤ n := by
  have hq : n / 4 * q ≤ n / 4 * 3 := Nat.mul_le_mul_left _ (Nat.le_of_lt_succ q.isLt)
  unfold quarterOffset
  omega

theorem reverseLastQuarter_eq (values : List Int32) :
    reverseLastQuarter values = .ok (values.take (quarterOffset values.length 3)
      ++ (values.drop (quarterOffset values.length 3)).reverse) := by
  have hle := quarterOffset_le values.length 3
  have hswap := swapEnds_eq (ε := GoString) (values.length + 1)
    (values.take (quarterOffset values.length 3)) (values.drop (quarterOffset values.length 3)) []
    (by rw [length_drop]; omega)
  rw [length_take, length_drop, Nat.min_eq_left hle, Nat.add_sub_cancel' hle,
    take_append_drop, append_nil, append_nil] at hswap
  exact hswap

theorem reverseLastQuarter_reverse {values reversed : List Int32}
    (h : reverseLastQuarter values = .ok reversed) :
    reversed.length = values.length ∧ reverseLastQuarter reversed = .ok values := by
  rw [reverseLastQuarter_eq] at h
  cases h
  have hle := quarterOffset_le values.length 3
  have hlen : (values.take (quarterOffset values.length 3)
      ++ (values.drop (quarterOffset values.length 3)).reverse).length = values.length := by
    rw [List.length_append, List.length_take, List.length_reverse, List.length_drop]
    omega
  have htake : (values.take (quarterOffset values.length 3)).length
      = quarterOffset values.length 3 := by
    rw [length_take, Nat.min_eq_left hle]
  refine ⟨hlen, ?_⟩
  rw [reverseLastQuarter_eq, hlen, take_left' htake, drop_left' htake,
    reverse_reverse, take_append_drop]

/-! ## Differences and sums -/

/-- The components of a range. -/
def range (values : List Int32) (i : ℕ) : Components where
  startLine := values.getD (i * 4) 0
  startCharacter := values.getD (i * 4 + 1) 0
  lineDistance := values.getD (i * 4 + 2) 0 - values.getD (i * 4) 0
  characterDistance := values.getD (i * 4 + 3) 0 - values.getD (i * 4 + 1) 0

/-- The components of the range before. -/
def rangeBefore (values : List Int32) : ℕ → Components
  | 0 => {}
  | i + 1 => range values i

/-- The component that a quarter stores. -/
def Components.quarter (c : Components) : Fin 4 → Int32
  | 0 => c.startLine
  | 1 => c.startCharacter
  | 2 => c.lineDistance
  | 3 => c.characterDistance

/-- What a quarter stores for a range. -/
def delta (values : List Int32) (q : Fin 4) (i : ℕ) : Int32 :=
  (range values i).quarter q - (rangeBefore values i).quarter q

variable {i : ℕ}

theorem index_of_lt {values : List Int32} (h : i < values.length) :
    (index values i : Result Int32) = .ok (values.getD i 0) := by
  refine index_of_some ?_
  rw [getD_eq_getElem?_getD, getElem?_eq_getElem h]
  rfl

theorem componentsAt_eq {values : List Int32} (h : i * 4 + 3 < values.length) :
    componentsAt values (i * 4) = .ok (range values i) := by
  rw [componentsAt, index_of_lt (by omega), ok_bind, index_of_lt (by omega),
    ok_bind, index_of_lt (by omega), ok_bind, index_of_lt h]
  rfl

theorem previousComponents_eq {values : List Int32} (h : i * 4 ≤ values.length) :
    previousComponents values i = .ok (rangeBefore values i) := by
  cases i with
  | zero => rfl
  | succ i =>
    rw [previousComponents, if_pos (Nat.succ_ne_zero i), Nat.add_sub_cancel,
      componentsAt_eq (by omega)]
    rfl

/-- **What the encoder has stored**: the differences of some ranges in some
quarters. -/
structure Stored (values : List Int32) (done : ℕ → Fin 4 → Prop) (shuffled : List Int32) :
    Prop where
  length : shuffled.length = values.length
  stored : ∀ i q, i < values.length / 4 → done i q →
    shuffled[quarterOffset values.length q + i]? = some (delta values q i)

theorem quarterOffset_inj {n i k : ℕ} {q q' : Fin 4} (hi : i < n / 4) (hk : k < n / 4)
    (h : quarterOffset n q + i = quarterOffset n q' + k) : q = q' ∧ i = k := by
  have hdiv : ∀ {j : ℕ} (q : Fin 4), j < n / 4 → (quarterOffset n q + j) / (n / 4) = q := by
    intro j q hj
    rw [quarterOffset, Nat.mul_add_div (Nat.zero_lt_of_lt hj), Nat.div_eq_of_lt hj, Nat.add_zero]
  have hq : q = q' := Fin.ext (by rw [← hdiv q hi, ← hdiv q' hk, h])
  exact ⟨hq, Nat.add_left_cancel (hq ▸ h)⟩

section Encode

variable {values shuffled : List Int32} {k : ℕ}

/-- One assignment. -/
theorem Stored.set {done : ℕ → Fin 4 → Prop} (h : Stored values done shuffled)
    (hk : k < values.length / 4) (q : Fin 4) :
    Stored values (fun i q' => done i q' ∨ (i = k ∧ q' = q))
      (shuffled.set (quarterOffset values.length q + k) (delta values q k)) where
  length := by rw [length_set, h.length]
  stored := by
    intro i q' hi hdone
    rw [getElem?_set]
    split
    · next heq =>
      obtain ⟨rfl, rfl⟩ := quarterOffset_inj hk hi heq
      rw [h.length, if_pos (quarterOffset_lt hk q)]
    · next hne =>
      refine h.stored i q' hi (hdone.resolve_right ?_)
      rintro ⟨rfl, rfl⟩
      exact hne rfl

/-- **An iteration of the encoder** stores the differences of one range. -/
theorem Stored.storeDeltas (h : Stored values (fun i _ => i < k) shuffled)
    (hk : k < values.length / 4) :
    ∃ shuffled', Ranges.storeDeltas values shuffled k = .ok shuffled'
      ∧ Stored values (fun i _ => i < k + 1) shuffled' := by
  have h₀ := h.set hk 0
  have h₁ := h₀.set hk 1
  have h₂ := h₁.set hk 2
  have h₃ := h₂.set hk 3
  have hbound : ∀ {sh : List Int32} (q : Fin 4), sh.length = values.length →
      quarterOffset values.length q + k < sh.length := by
    intro sh q hlen
    rw [hlen]
    exact quarterOffset_lt hk q
  refine ⟨_, ?_, h₃.length, fun i q hi hdone => h₃.stored i q hi ?_⟩
  · unfold Ranges.storeDeltas
    dsimp only
    rw [componentsAt_eq (by omega), ok_bind, previousComponents_eq (by omega), ok_bind]
    show (do
      let sh ← store shuffled (quarterOffset values.length 0 + k) (delta values 0 k)
      let sh ← store sh (quarterOffset values.length 1 + k) (delta values 1 k)
      let sh ← store sh (quarterOffset values.length 2 + k) (delta values 2 k)
      store sh (quarterOffset values.length 3 + k) (delta values 3 k)) = _
    rw [store_of_lt (hbound 0 h.length), ok_bind, store_of_lt (hbound 1 h₀.length),
      ok_bind, store_of_lt (hbound 2 h₁.length), ok_bind,
      store_of_lt (hbound 3 h₂.length)]
  · rcases Nat.lt_succ_iff_lt_or_eq.mp hdone with hlt | rfl
    · exact .inl (.inl (.inl (.inl hlt)))
    · fin_cases q <;> simp

/-- **The run of the encoder** stores the differences of all ranges. -/
theorem shuffleFrom_stored (count : ℕ) : ∀ {k : ℕ} {shuffled : List Int32},
    k + count = values.length / 4 → Stored values (fun i _ => i < k) shuffled →
    ∃ shuffled', shuffleFrom values count k shuffled = .ok shuffled'
      ∧ Stored values (fun i _ => i < values.length / 4) shuffled' := by
  induction count with
  | zero =>
    intro k shuffled hk h
    obtain rfl : k = values.length / 4 := hk
    exact ⟨shuffled, rfl, h⟩
  | succ count ih =>
    intro k shuffled hk h
    obtain ⟨shuffled', hstep, h'⟩ := h.storeDeltas (by omega)
    rw [shuffleFrom, hstep, ok_bind]
    exact ih (by omega) h'

end Encode

/-! ## Decoding what was encoded -/

section Decode

variable {values shuffled : List Int32}

theorem addDeltas_stored (h : Stored values (fun i _ => i < values.length / 4) shuffled)
    (hi : i < values.length / 4) :
    addDeltas shuffled i (rangeBefore values i) = .ok (range values i,
      [values.getD (i * 4) 0, values.getD (i * 4 + 1) 0, values.getD (i * 4 + 2) 0,
        values.getD (i * 4 + 3) 0]) := by
  have hread : ∀ q : Fin 4, (index shuffled (quarterOffset values.length q + i) : Result Int32)
      = .ok (delta values q i) := fun q => index_of_some (h.stored i q hi hi)
  have hadd : ∀ a b : Int32, a + (b - a) = b := by
    intro a b
    grind
  unfold addDeltas
  dsimp only
  rw [h.length, hread 0, ok_bind, hread 1, ok_bind, hread 2, ok_bind, hread 3]
  simp only [ok_bind, pure_eq, delta, Components.quarter, hadd]
  simp only [range, hadd]

theorem take_range (h : i * 4 + 3 < values.length) :
    values.take (i * 4) ++ [values.getD (i * 4) 0, values.getD (i * 4 + 1) 0,
      values.getD (i * 4 + 2) 0, values.getD (i * 4 + 3) 0] = values.take ((i + 1) * 4) := by
  have hget : ∀ j, values.getD (i * 4 + j) 0 = (values.drop (i * 4)).getD j 0 := by
    intro j
    rw [getD_eq_getElem?_getD, getD_eq_getElem?_getD, getElem?_drop]
  have hlen : 4 ≤ (values.drop (i * 4)).length := by
    rw [length_drop]
    omega
  have hzero := hget 0
  rw [Nat.add_zero] at hzero
  rw [Nat.add_mul, take_add, hzero, hget 1, hget 2, hget 3]
  match values.drop (i * 4), hlen with
  | a :: b :: c :: d :: rest, _ => rfl

/-- **The run of the decoder**: what was combined are the values up to the
range it has come to. -/
theorem combineFrom_stored (h : Stored values (fun i _ => i < values.length / 4) shuffled)
    (count : ℕ) : ∀ {i : ℕ}, i + count = values.length / 4 →
      combineFrom shuffled count i (rangeBefore values i) (values.take (i * 4))
        = .ok (values.take (values.length / 4 * 4)) := by
  induction count with
  | zero =>
    intro i hi
    rw [combineFrom, show i = values.length / 4 from hi]
  | succ count ih =>
    intro i hi
    rw [combineFrom, addDeltas_stored h (by omega), ok_bind]
    dsimp only
    rw [take_range (by omega)]
    exact ih (by omega)

end Decode

/-- **Encoding ranges loses nothing.** For every list of components whose
length is a multiple of four, and below `2 ^ 31`, encoding it returns bytes,
and decoding the bytes returns the list. -/
theorem decodeFlattenedRanges_encodeRanges {values : List Int32} (hfour : 4 ∣ values.length)
    (hlen : values.length < 2 ^ 31) :
    (do decodeFlattenedRanges (← encodeRanges values)) = .ok values := by
  by_cases hempty : values.length = 0
  · rw [length_eq_zero_iff.mp hempty]
    rfl
  have hstart : Stored values (fun i _ => i < 0) (replicate values.length 0) :=
    ⟨length_replicate, fun i _ _ hi => absurd hi (Nat.not_lt_zero i)⟩
  obtain ⟨shuffled, hshuffle, hstored⟩ := shuffleFrom_stored _ (Nat.zero_add _) hstart
  obtain ⟨reversed, hreverse⟩ : ∃ reversed, reverseLastQuarter shuffled = .ok reversed :=
    ⟨_, reverseLastQuarter_eq shuffled⟩
  obtain ⟨hlength, hback⟩ := reverseLastQuarter_reverse hreverse
  have hmod : values.length % 4 = 0 := Nat.mod_eq_zero_of_dvd hfour
  have hencode : encodeRanges values = .ok (writeVarints reversed) := by
    rw [encodeRanges, if_neg hempty, if_neg (not_not_intro hmod), hshuffle, ok_bind, hreverse]
    rfl
  have hn : reversed.length = values.length := hlength.trans hstored.length
  have hread : readVarints (writeVarints reversed) = .ok reversed :=
    readVarints_writeVarints (by omega)
  have hne : (writeVarints reversed).length ≠ 0 := by
    intro hnil
    rw [length_eq_zero_iff.mp hnil] at hread
    cases hread
    exact hempty hn.symm
  have hcombine := combineFrom_stored hstored (values.length / 4) (Nat.zero_add _)
  rw [Nat.div_mul_cancel hfour, take_length] at hcombine
  rw [hencode, ok_bind, decodeFlattenedRanges, if_neg hne, decodeRangesFromReader, hread, ok_bind]
  dsimp only
  rw [hn, if_neg (not_not_intro hmod), hback, ok_bind]
  exact hcombine

/-- Distances that overflow, and runs of zeros in all quarters. -/
theorem decodeFlattenedRanges_overflow :
    (do decodeFlattenedRanges (← encodeRanges
      [2147483647, 0, -2147483648, 5, -2147483648, 0, 2147483647, 5]))
      = .ok [2147483647, 0, -2147483648, 5, -2147483648, 0, 2147483647, 5] :=
  decodeFlattenedRanges_encodeRanges (by decide) (by decide)

/-! ## Decoding any bytes -/

theorem readVarintsFrom_safe (fuel : ℕ) : ∀ {r : GoString} (values : List Int32),
    r.length < fuel → Outcome.Safe (fun _ => True) (readVarintsFrom fuel r values) := by
  induction fuel with
  | zero => exact fun _ h => absurd h (Nat.not_lt_zero _)
  | succ fuel ih =>
    intro r values hfuel
    rw [readVarintsFrom]
    cases hread : readVarint32 r with
    | error e => trivial
    | ok next =>
      cases next with
      | none => trivial
      | some next =>
        obtain ⟨value, r'⟩ := next
        have hlen := length_of_readVarint32 hread
        dsimp only
        split
        · exact ih _ (by omega)
        · cases hread' : readVarint32 r' with
          | error e => trivial
          | ok next =>
            cases next with
            | none => trivial
            | some next =>
              obtain ⟨count, r''⟩ := next
              have hlen' := length_of_readVarint32 hread'
              exact ih _ (by omega)

theorem exists_addDeltas {values : List Int32} (hi : i < values.length / 4)
    (previous : Components) :
    ∃ current range, addDeltas values i previous = .ok (current, range) ∧ range.length = 4 := by
  have hread : ∀ q, (index values (quarterOffset values.length q + i) : Result Int32)
      = .ok (values.getD (quarterOffset values.length q + i) 0) :=
    fun q => index_of_lt (quarterOffset_lt hi q)
  unfold addDeltas
  dsimp only
  rw [hread 0, ok_bind, hread 1, ok_bind, hread 2, ok_bind, hread 3]
  exact ⟨_, _, rfl, rfl⟩

theorem exists_combineFrom {values : List Int32} (count : ℕ) :
    ∀ {i : ℕ} (previous : Components) (combined : List Int32), i + count = values.length / 4 →
      ∃ combined', combineFrom values count i previous combined = .ok combined'
        ∧ combined'.length = combined.length + 4 * count := by
  induction count with
  | zero => exact fun _ combined _ => ⟨combined, rfl, rfl⟩
  | succ count ih =>
    intro i previous combined hi
    obtain ⟨current, range, hstep, hrange⟩ := exists_addDeltas (show i < values.length / 4 by omega)
      previous
    obtain ⟨combined', hrun, hlen⟩ := ih current (combined ++ range)
      (show i + 1 + count = _ by omega)
    refine ⟨combined', ?_, ?_⟩
    · rw [combineFrom, hstep, ok_bind]
      exact hrun
    · rw [hlen, List.length_append, hrange]
      omega

/-- **Any bytes are decoded or refused**: the decoder does not panic, and
what it returns are whole ranges. -/
theorem decodeFlattenedRanges_safe (encoded : GoString) :
    Outcome.Safe (fun values => 4 ∣ values.length) (decodeFlattenedRanges encoded) := by
  rw [decodeFlattenedRanges]
  split
  · exact Nat.dvd_zero 4
  · rw [decodeRangesFromReader]
    refine (readVarintsFrom_safe _ [] (Nat.lt_succ_self _)).bind fun values _ => ?_
    dsimp only
    split
    · trivial
    · obtain ⟨reversed, hreverse⟩ : ∃ reversed, reverseLastQuarter values = .ok reversed :=
        ⟨_, reverseLastQuarter_eq values⟩
      have hlen := (reverseLastQuarter_reverse hreverse).1
      have hcount : 0 + values.length / 4 = reversed.length / 4 := by rw [hlen, Nat.zero_add]
      obtain ⟨combined, hrun, hlen'⟩ := exists_combineFrom _ {} [] hcount
      rw [hreverse, ok_bind, hrun]
      exact ⟨values.length / 4, by rw [hlen', length_nil, Nat.zero_add]⟩

end Ranges
