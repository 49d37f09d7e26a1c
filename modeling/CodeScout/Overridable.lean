import CodeScout.Util.GoJson
import CodeScout.Util.GoStrconv
import CodeScout.Util.Outcome
import Mathlib

/-!
# Overridable values of batch specs

A `BoolOrString` is a list of rules, each with a glob for repository names,
an optional suffix for branches and a value. The last rule that matches
decides. In a document a value is a scalar, which stands for one rule with
the glob `*`, or a list of objects with one entry each, whose key is the glob
and, after an `@`, the suffix.

Writing a value keeps the glob and the value of a rule but not its suffix:
a rule for one branch comes back as a rule for all branches. There are
smaller losses besides. The value without rules is written as `false`, and a
single rule with the glob `*` as its bare value, which is read as a scalar
only if it is one. `roundTrips_iff` puts them together.
-/

namespace Overridable

open List

/-- `github.com/gobwas/glob`, of which only the glob `*` matters here. -/
structure GlobLibrary where
  compile : GoString → Except GoString (GoString → Bool)
  compile_all : compile (lit "*") = .ok fun _ => true

/-! ## Rules -/

/-- A value for the names that a pattern matches. -/
structure Rule (C : JsonCodec) where
  pattern : GoString
  patternSuffix : GoString
  compiled : GoString → Bool
  value : GoAny C

def allPattern : GoString := lit "*"

/-- A set of rules that either evaluate to a string or a bool. -/
structure BoolOrString (C : JsonCodec) where
  rules : List (Rule C)

/-- What a decoder makes of a document for each of the types that are tried. -/
structure Decoded (C : JsonCodec) where
  asBool : Option Bool
  asString : Option GoString
  /-- A list of maps, each with its entries. -/
  asComplex : Option (List (List (GoString × GoAny C)))

/-- What reading fails with. -/
inductive UnmarshalError
  /-- The error of the decoder. -/
  | decoder
  | message (text : GoString)

open BoolOrString Outcome

section

variable (lib : GlobLibrary) {C : JsonCodec}

/-- The pattern up to the first `@` is a glob, and what comes after it is the
suffix. -/
def newRule (pattern : GoString) (value : GoAny C) : Except GoString (Rule C) :=
  let glob := pattern.takeWhile (· != 64)
  let suffix := (pattern.dropWhile (· != 64)).tail
  match lib.compile glob with
  | .ok compiled => .ok ⟨glob, suffix, compiled, value⟩
  | .error err => .error err

/-- The rule for all names. -/
def simpleRule (v : GoAny C) : Outcome UnmarshalError (Rule C) :=
  match newRule lib allPattern v with
  | .ok r => .ok r
  | .error _ => .panic

/-- The value of the last rule that matches the name. -/
def matchName (rules : List (Rule C)) (name : GoString) : GoAny C :=
  ((rules.reverse.find? fun r => r.compiled name).map Rule.value).getD .nil

/-- The value of the last rule that matches the name and the suffix. -/
def matchWithSuffix (rules : List (Rule C)) (name suffix : GoString) : GoAny C :=
  ((rules.reverse.find? fun r =>
    r.compiled name && (r.patternSuffix == [] || r.patternSuffix == suffix)).map Rule.value).getD
      .nil

/-- The rules of the entries from index `i` on. -/
def hydrateFromComplex (i : ℕ) :
    List (List (GoString × GoAny C)) → Outcome UnmarshalError (List (Rule C))
  | [] => .ok []
  | [(pattern, value)] :: rest =>
    match newRule lib pattern value with
    | .ok r => hydrateFromComplex (i + 1) rest >>= fun rules => .ok (r :: rules)
    | .error err =>
      .error (.message (lit "building rule for array entry " ++ formatInt i ++ lit ": " ++ err))
  | rule :: _ =>
    .error (.message (lit "unexpected number of elements in the array at entry " ++ formatInt i ++
      lit ": " ++ formatInt rule.length ++ lit " (must be 1)"))

namespace BoolOrString

/-- The value for a name. -/
def value (bs : BoolOrString C) (name : GoString) : GoAny C :=
  matchName bs.rules name

/-- The value for a name and a branch. -/
def valueWithSuffix (bs : BoolOrString C) (name suffix : GoString) : GoAny C :=
  matchWithSuffix bs.rules name suffix

/-- The body that `UnmarshalJSON` and `UnmarshalYAML` share. -/
def unmarshal (d : Decoded C) : Outcome UnmarshalError (BoolOrString C) :=
  match d.asBool, d.asString, d.asComplex with
  | some b, _, _ => simpleRule lib (.bool b) >>= fun r => .ok ⟨[r]⟩
  | none, some s, _ => simpleRule lib (.string s) >>= fun r => .ok ⟨[r]⟩
  | none, none, some c => hydrateFromComplex lib 0 c >>= fun rules => .ok ⟨rules⟩
  | none, none, none => .error .decoder

end BoolOrString

/-- `json.Unmarshal` into a `bool`, which `null` leaves as it is. -/
def decodeBool : Json → Option Bool
  | .bool b => some b
  | .null => some false
  | _ => none

/-- Reading null into a string leaves it empty. -/
def decodeString : Json → Option GoString
  | .string s => some s
  | .null => some []
  | _ => none

/-- `json.Unmarshal` into a `map[string]any`. -/
def decodeMap : Json → Option (List (GoString × GoAny C))
  | .object entries => (GoAny.decodeEntries C entries).map GoAny.mapOf
  | .null => some []
  | _ => none

/-- `json.Unmarshal` into a `complex`. -/
def decodeComplex : Json → Option (List (List (GoString × GoAny C)))
  | .array elems => elems.mapM decodeMap
  | .null => some []
  | _ => none

namespace BoolOrString

def unmarshalJSON (j : Json) : Outcome UnmarshalError (BoolOrString C) :=
  unmarshal lib ⟨decodeBool j, decodeString j, decodeComplex j⟩

/-- The argument is what the callback of the YAML decoder does. -/
def unmarshalYAML (d : Decoded C) : Outcome UnmarshalError (BoolOrString C) :=
  unmarshal lib d

end BoolOrString

/-- The object that is written for a rule. -/
def marshalRule (r : Rule C) : Option Json :=
  r.value.encode.map fun j => .object [(GoAny.encodeString r.pattern, j)]

/-- `rules.MarshalJSON`. -/
def marshalRules (rules : List (Rule C)) : Option Json :=
  match rules with
  | [r] => if r.pattern = allPattern then r.value.encode else (rules.mapM marshalRule).map .array
  | _ => (rules.mapM marshalRule).map .array

def BoolOrString.marshalJSON (bs : BoolOrString C) : Option Json :=
  if bs.rules = [] then some (.bool false) else marshalRules bs.rules

/-! ## Storing a value -/

/-- The values that a document can be read to. -/
inductive Obtained (bs : BoolOrString C) : Prop
  | json (j : Json) (h : BoolOrString.unmarshalJSON lib j = .ok bs)
  | yaml (d : Decoded C) (h : BoolOrString.unmarshalYAML lib d = .ok bs)

/-- Writing the value and reading it again gives the value, as far as its
readers can see. -/
def RoundTrips (bs : BoolOrString C) : Prop :=
  ∃ j bs', bs.marshalJSON = some j ∧ BoolOrString.unmarshalJSON lib j = .ok bs' ∧
    ∀ name, bs'.value name = bs.value name ∧
      ∀ suffix, bs'.valueWithSuffix name suffix = bs.valueWithSuffix name suffix

/-- The rule is what `newRule` makes of its own pattern, the suffix apart. -/
structure Rule.WellFormed (r : Rule C) : Prop where
  pattern : 64 ∉ r.pattern
  compiled : lib.compile r.pattern = .ok r.compiled

variable {lib}

variable {r : Rule C}

theorem wellFormed_of_newRule {pattern : GoString} {v : GoAny C}
    (h : newRule lib pattern v = .ok r) : r.WellFormed lib ∧ r.value = v := by
  unfold newRule at h
  dsimp only at h
  split at h
  case h_2 => cases h
  case h_1 compiled hcompiled =>
    obtain rfl := Except.ok.inj h
    refine ⟨⟨fun hmem => ?_, hcompiled⟩, rfl⟩
    simpa using mem_takeWhile_imp hmem

theorem Rule.WellFormed.newRule (h : r.WellFormed lib) (v : GoAny C) :
    newRule lib r.pattern v = .ok { r with patternSuffix := [], value := v } := by
  have hall : ∀ b ∈ r.pattern, (b != 64) = true := by
    intro b hb
    rw [bne_iff_ne]
    rintro rfl
    exact h.pattern hb
  simp only [Overridable.newRule, takeWhile_eq_self_iff.mpr hall,
    dropWhile_eq_nil_iff.mpr hall, h.compiled, tail_nil]

/-- The rule for all repositories and branches. -/
def ruleForAll (v : GoAny C) : Rule C :=
  ⟨allPattern, [], fun _ => true, v⟩

theorem ruleForAll_wellFormed (lib : GlobLibrary) (v : GoAny C) :
    (ruleForAll v).WellFormed lib where
  pattern := by
    show 64 ∉ allPattern
    decide
  compiled := lib.compile_all

theorem simpleRule_eq (v : GoAny C) : simpleRule lib v = .ok (ruleForAll v) := by
  unfold simpleRule
  rw [show newRule lib allPattern v = .ok (ruleForAll v) from
    (ruleForAll_wellFormed lib v).newRule v]

theorem wellFormed_of_hydrate :
    ∀ {c : List (List (GoString × GoAny C))} {i : ℕ} {rules : List (Rule C)},
      hydrateFromComplex lib i c = .ok rules → ∀ r ∈ rules, r.WellFormed lib ∧
        ∃ pattern, [(pattern, r.value)] ∈ c := by
  intro c
  induction c with
  | nil =>
    intro i rules h r hr
    obtain rfl := ok.inj h
    exact absurd hr not_mem_nil
  | cons rule rest ih =>
    intro i rules h r hr
    unfold hydrateFromComplex at h
    split at h
    case h_1 heq => cases heq
    case h_3 => cases h
    case h_2 pattern value rest' heq =>
      obtain ⟨rfl, rfl⟩ := cons.inj heq
      split at h
      case h_2 => cases h
      case h_1 r' hr' =>
        obtain ⟨rules', hrules, hcons⟩ := bind_eq_ok.mp h
        obtain rfl := ok.inj hcons
        obtain ⟨hwf, hvalue⟩ := wellFormed_of_newRule hr'
        rcases mem_cons.mp hr with rfl | hr
        · exact ⟨hwf, pattern, hvalue ▸ mem_cons_self⟩
        · obtain ⟨hwf', pattern', hmem⟩ := ih hrules r hr
          exact ⟨hwf', pattern', mem_cons_of_mem _ hmem⟩

theorem wellFormed_of_unmarshal {d : Decoded C} {bs : BoolOrString C}
    (h : BoolOrString.unmarshal lib d = .ok bs) : ∀ r ∈ bs.rules, r.WellFormed lib := by
  have hsimple : ∀ v : GoAny C, (simpleRule lib v >>= fun r => .ok ⟨[r]⟩) = .ok bs →
      ∀ r ∈ bs.rules, r.WellFormed lib := by
    intro v hv r hr
    rw [simpleRule_eq, ok_bind] at hv
    obtain rfl := ok.inj hv
    obtain rfl := mem_singleton.mp hr
    exact ruleForAll_wellFormed lib v
  unfold unmarshal at h
  split at h
  case h_1 => exact hsimple _ h
  case h_2 => exact hsimple _ h
  case h_3 c _ _ _ =>
    obtain ⟨rules, hrules, hbs⟩ := bind_eq_ok.mp h
    obtain rfl := ok.inj hbs
    exact fun r hr => (wellFormed_of_hydrate hrules r hr).1
  case h_4 => cases h

theorem Obtained.wellFormed {bs : BoolOrString C} (h : Obtained lib bs) :
    ∀ r ∈ bs.rules, r.WellFormed lib := by
  cases h with
  | json j h => exact wellFormed_of_unmarshal h
  | yaml d h => exact wellFormed_of_unmarshal h

/-! ## What is read back -/

/-- The value that is read back. -/
def stored (v : GoAny C) : GoAny C :=
  v.reread.getD .nil

/-- The rule that is read back. -/
def storedRule (r : Rule C) : Rule C :=
  { r with patternSuffix := [], value := stored r.value }

theorem matchName_eq (rules : List (Rule C)) (name : GoString) :
    matchName rules name = .nil ∨ ∃ r ∈ rules, matchName rules name = r.value := by
  unfold matchName
  cases hfind : rules.reverse.find? fun r => r.compiled name with
  | none => exact .inl rfl
  | some r => exact .inr ⟨r, mem_reverse.mp (mem_of_find?_eq_some hfind), rfl⟩

theorem matchName_storedRule (rules : List (Rule C)) (name : GoString) :
    matchName (rules.map storedRule) name = stored (matchName rules name) := by
  unfold matchName
  rw [← map_reverse, find?_map]
  show ((((rules.reverse.find? fun r => r.compiled name).map storedRule)).map Rule.value).getD _ = _
  cases rules.reverse.find? fun r => r.compiled name with
  | none => rfl
  | some r => rfl

variable {rules : List (Rule C)}

/-- Without suffixes the branch does not matter. -/
theorem matchWithSuffix_eq_matchName
    (h : ∀ r ∈ rules, r.patternSuffix = []) (name suffix : GoString) :
    matchWithSuffix rules name suffix = matchName rules name := by
  unfold matchWithSuffix matchName
  congr 2
  refine find?_congr fun r hr => ?_
  simp [h r (mem_reverse.mp hr)]

theorem hydrate_storedRule (hwf : ∀ r ∈ rules, r.WellFormed lib) (i : ℕ) :
    hydrateFromComplex lib i (rules.map fun r => [(r.pattern, stored r.value)])
      = .ok (rules.map storedRule) := by
  induction rules generalizing i with
  | nil => rfl
  | cons r rules ih =>
    rw [forall_mem_cons] at hwf
    rw [map_cons, hydrateFromComplex, hwf.1.newRule]
    dsimp only
    rw [ih hwf.2]
    rfl

theorem decodeMap_marshalRule {elem : Json} (hvalid : validString r.pattern)
    (h : marshalRule r = some elem) :
    decodeMap elem = r.value.reread.map fun v => [(r.pattern, v)] := by
  obtain ⟨j, hj, rfl⟩ := Option.map_eq_some_iff.mp h
  unfold GoAny.reread
  rw [GoAny.encodeString_of_valid hvalid, hj, Option.bind_some]
  show ((GoAny.decode C j).bind fun v => some [(r.pattern, v)]).map GoAny.mapOf = _
  cases GoAny.decode C j with
  | none => rfl
  | some v => rfl

theorem decode_marshalRules (hvalid : ∀ r ∈ rules, validString r.pattern) :
    ∀ {elems : List Json} {c : List (List (GoString × GoAny C))},
      rules.mapM marshalRule = some elems → elems.mapM decodeMap = some c →
      (∀ r ∈ rules, r.value.reread.isSome) ∧
        c = rules.map fun r => [(r.pattern, stored r.value)] := by
  induction rules with
  | nil =>
    intro elems c helems hc
    obtain rfl := Option.some.inj helems
    obtain rfl := Option.some.inj hc
    exact ⟨nofun, rfl⟩
  | cons r rules ih =>
    intro elems c helems hc
    rw [forall_mem_cons] at hvalid
    rw [mapM_cons] at helems
    obtain ⟨elem, helem, helems⟩ := Option.bind_eq_some_iff.mp helems
    obtain ⟨elems, hrest, helems⟩ := Option.bind_eq_some_iff.mp helems
    obtain rfl := Option.some.inj helems
    rw [mapM_cons, decodeMap_marshalRule hvalid.1 helem] at hc
    obtain ⟨entry, hentry, hc⟩ := Option.bind_eq_some_iff.mp hc
    obtain ⟨c, hcrest, hc⟩ := Option.bind_eq_some_iff.mp hc
    obtain rfl := Option.some.inj hc
    obtain ⟨v, hv, rfl⟩ := Option.map_eq_some_iff.mp hentry
    obtain ⟨hall, rfl⟩ := ih hvalid.2 hrest hcrest
    refine ⟨forall_mem_cons.mpr ⟨by rw [hv]; rfl, hall⟩, ?_⟩
    rw [map_cons, stored, hv]
    rfl

theorem exists_marshalRules
    (hvalid : ∀ r ∈ rules, validString r.pattern) (hread : ∀ r ∈ rules, r.value.reread.isSome) :
    ∃ elems c, rules.mapM marshalRule = some elems ∧ elems.mapM (decodeMap : Json → _) = some c ∧
      c = rules.map fun r => [(r.pattern, stored r.value)] := by
  induction rules with
  | nil => exact ⟨[], [], rfl, rfl, rfl⟩
  | cons r rules ih =>
    rw [forall_mem_cons] at hvalid hread
    obtain ⟨elems, c, helems, hc, rfl⟩ := ih hvalid.2 hread.2
    obtain ⟨v, hv⟩ := Option.isSome_iff_exists.mp hread.1
    obtain ⟨j, hj, -⟩ := Option.bind_eq_some_iff.mp hv
    have helem : marshalRule r = some (.object [(GoAny.encodeString r.pattern, j)]) := by
      rw [marshalRule, hj]
      rfl
    refine ⟨.object [(GoAny.encodeString r.pattern, j)] :: elems, _, ?_, ?_, rfl⟩
    · rw [mapM_cons, helem, helems]
      rfl
    · rw [mapM_cons, decodeMap_marshalRule hvalid.1 helem, hv, hc, map_cons, stored, hv]
      rfl

theorem unmarshalJSON_array {elems : List Json} {bs : BoolOrString C} :
    BoolOrString.unmarshalJSON lib (.array elems) = .ok bs ↔
      ∃ c, elems.mapM decodeMap = some c ∧ hydrateFromComplex lib 0 c = .ok bs.rules := by
  show unmarshal lib ⟨none, none, elems.mapM decodeMap⟩ = _ ↔ _
  unfold unmarshal
  cases hc : elems.mapM (decodeMap (C := C)) with
  | none => simp
  | some c =>
    dsimp only
    rw [bind_eq_ok]
    constructor
    · rintro ⟨rules, hrules, hbs⟩
      obtain rfl := ok.inj hbs
      exact ⟨c, rfl, hrules⟩
    · rintro ⟨c', hc', hrules⟩
      obtain rfl := Option.some.inj hc'
      exact ⟨bs.rules, hrules, rfl⟩

section conditions

variable {bs : BoolOrString C}

/-- A boolean or a string. -/
inductive IsScalar : GoAny C → Prop
  | bool (b : Bool) : IsScalar (.bool b)
  | string (s : GoString) : IsScalar (.string s)

/-- The cases in which a value is written as a list of objects. -/
def WrittenAsList (rules : List (Rule C)) : Prop :=
  rules ≠ [] ∧ ∀ r, rules = [r] → r.pattern ≠ allPattern

theorem marshalJSON_of_writtenAsList (h : WrittenAsList bs.rules) :
    bs.marshalJSON = (bs.rules.mapM marshalRule).map .array := by
  unfold marshalJSON marshalRules
  rw [if_neg h.1]
  split
  case h_1 r hr => rw [if_neg (h.2 r hr)]
  case h_2 => rfl

/-- **A list of objects keeps the value** when suffixes have no effect and
the values in effect can be written and read. -/
theorem roundTrips_iff_of_list (hwf : ∀ r ∈ bs.rules, r.WellFormed lib)
    (hvalid : ∀ r ∈ bs.rules, validString r.pattern) (hlist : WrittenAsList bs.rules) :
    RoundTrips lib bs ↔ (∀ r ∈ bs.rules, r.value.reread.isSome) ∧
      ∀ name, (bs.value name).reread = some (bs.value name) ∧
        ∀ suffix, bs.valueWithSuffix name suffix = bs.value name := by
  have hvalue : ∀ name, (⟨bs.rules.map storedRule⟩ : BoolOrString C).value name
      = stored (bs.value name) := matchName_storedRule bs.rules
  have hsuffix : ∀ name suffix,
      (⟨bs.rules.map storedRule⟩ : BoolOrString C).valueWithSuffix name suffix
        = stored (bs.value name) := by
    intro name suffix
    refine (matchWithSuffix_eq_matchName (fun r hr => ?_) name suffix).trans (hvalue name)
    obtain ⟨r', -, rfl⟩ := mem_map.mp hr
    rfl
  unfold RoundTrips
  rw [marshalJSON_of_writtenAsList hlist]
  constructor
  · rintro ⟨j, bs', hj, hbs', hagree⟩
    obtain ⟨elems, helems, rfl⟩ := Option.map_eq_some_iff.mp hj
    obtain ⟨c, hc, hrules⟩ := unmarshalJSON_array.mp hbs'
    obtain ⟨hread, rfl⟩ := decode_marshalRules hvalid helems hc
    rw [hydrate_storedRule hwf] at hrules
    obtain rfl : bs' = ⟨bs.rules.map storedRule⟩ := by
      rw [ok.inj hrules]
    refine ⟨hread, fun name => ?_⟩
    have hstored : stored (bs.value name) = bs.value name :=
      (hvalue name).symm.trans (hagree name).1
    have hsome : (bs.value name).reread.isSome := by
      rcases matchName_eq bs.rules name with hnil | ⟨r, hr, heq⟩
      · rw [value, hnil]
        rfl
      · rw [value, heq]
        exact hread r hr
    obtain ⟨v, hv⟩ := Option.isSome_iff_exists.mp hsome
    refine ⟨?_, fun suffix => ?_⟩
    · rw [stored, hv, Option.getD_some] at hstored
      rw [hv, hstored]
    · rw [← (hagree name).2 suffix, hsuffix, hstored]
  · rintro ⟨hread, hstable⟩
    obtain ⟨elems, c, helems, hc, rfl⟩ := exists_marshalRules hvalid hread
    refine ⟨.array elems, ⟨bs.rules.map storedRule⟩, ?_, ?_, fun name => ?_⟩
    · rw [helems]
      rfl
    · exact unmarshalJSON_array.mpr ⟨_, hc, hydrate_storedRule hwf 0⟩
    · have hstored : stored (bs.value name) = bs.value name := by
        rw [stored, (hstable name).1, Option.getD_some]
      refine ⟨(hvalue name).trans hstored, fun suffix => ?_⟩
      rw [hsuffix, hstored, (hstable name).2]

theorem exists_of_mem_mapM {α β : Type} {f : α → Option β} {b : β} :
    ∀ {l : List α} {l' : List β}, l.mapM f = some l' → b ∈ l' → ∃ a ∈ l, f a = some b := by
  intro l
  induction l with
  | nil =>
    intro l' hl hb
    obtain rfl := Option.some.inj hl
    exact absurd hb not_mem_nil
  | cons a l ih =>
    intro l' hl hb
    rw [mapM_cons] at hl
    obtain ⟨b', hb', hl⟩ := Option.bind_eq_some_iff.mp hl
    obtain ⟨l', hrest, hl⟩ := Option.bind_eq_some_iff.mp hl
    obtain rfl := Option.some.inj hl
    rcases mem_cons.mp hb with rfl | hb
    · exact ⟨a, mem_cons_self, hb'⟩
    · obtain ⟨a', ha', hfa⟩ := ih hrest hb
      exact ⟨a', mem_cons_of_mem _ ha', hfa⟩

/-- What is read from a list of objects is smaller than what is written for
it, so that a list is never read back as a value that is written as the
list. -/
theorem encode_ne_array_of_unmarshalJSON {elems : List Json} {v : GoAny C}
    (hbs : BoolOrString.unmarshalJSON lib (.array elems) = .ok bs) {name : GoString}
    (hv : bs.value name = v) : v.encode ≠ some (.array elems) := by
  intro hencode
  obtain ⟨c, hc, hrules⟩ := unmarshalJSON_array.mp hbs
  rcases matchName_eq bs.rules name with hnil | ⟨r, hr, heq⟩
  · rw [← hv, value, hnil] at hencode
    cases hencode
  · obtain ⟨-, pattern, hentry⟩ := wellFormed_of_hydrate hrules r hr
    obtain ⟨elem, helem, hmap⟩ := exists_of_mem_mapM hc hentry
    cases elem with
    | object entries =>
      obtain ⟨vs, hvs, hmapOf⟩ := Option.map_eq_some_iff.mp hmap
      have hmem : (pattern, r.value) ∈ vs :=
        GoAny.mem_of_mem_mapOf (hmapOf ▸ mem_cons_self)
      obtain ⟨j, hj, hsize⟩ := GoAny.exists_of_mem_decodeEntries hvs hmem
      rw [show r.value = v from heq.symm.trans hv] at hj
      have hgrow := GoAny.size_encode_decode hj hencode
      have hle := Json.size_le_sizeElems helem
      simp only [Json.size] at hgrow hle
      omega
    | null | bool _ | number _ | string _ | array _ => cases hmap

theorem Rule.WellFormed.compiled_eq (hwf : r.WellFormed lib)
    (hall : r.pattern = allPattern) : r.compiled = fun _ => true := by
  have hcompiled := hwf.compiled
  rw [hall, allPattern, lib.compile_all] at hcompiled
  exact (Except.ok.inj hcompiled).symm

theorem value_of_all (hall : r.compiled = fun _ => true) (hrules : bs.rules = [r])
    (name : GoString) : bs.value name = r.value := by
  simp [value, matchName, hrules, hall]

/-- A scalar is read as the rule for all repositories. -/
theorem unmarshalJSON_of_isScalar {v : GoAny C} (h : IsScalar v) (hstable : v.reread = some v) :
    ∃ j, v.encode = some j ∧
      BoolOrString.unmarshalJSON lib j = .ok (⟨[ruleForAll v]⟩ : BoolOrString C) := by
  cases h with
  | bool b =>
    refine ⟨.bool b, rfl, ?_⟩
    show (simpleRule lib _ >>= fun r => ok _) = _
    rw [simpleRule_eq]
    rfl
  | string s =>
    have hs : GoAny.encodeString s = s := by
      have := Option.some.inj hstable
      exact GoAny.string.inj this
    refine ⟨.string s, congrArg (some ∘ Json.string) hs, ?_⟩
    show (simpleRule lib _ >>= fun r => ok _) = _
    rw [simpleRule_eq]
    rfl

/-- The bare value of a rule for all repositories. -/
theorem roundTrips_iff_of_all (hwf : r.WellFormed lib) (hall : r.pattern = allPattern)
    (hrules : bs.rules = [r]) :
    RoundTrips lib bs ↔ IsScalar r.value ∧ r.value.reread = some r.value ∧
      ∀ name suffix, bs.valueWithSuffix name suffix = bs.value name := by
  have hvalue := value_of_all (hwf.compiled_eq hall) hrules
  have hmarshal : bs.marshalJSON = r.value.encode := by
    simp [marshalJSON, marshalRules, hrules, hall]
  have hscalar : ∀ v : GoAny C, (⟨[ruleForAll v]⟩ : BoolOrString C).value = fun _ => v := by
    intro v
    funext name
    rfl
  have hbranch : ∀ v : GoAny C,
      (⟨[ruleForAll v]⟩ : BoolOrString C).valueWithSuffix = fun _ _ => v := by
    intro v
    funext name suffix
    rfl
  -- a scalar is read as the rule for all repositories
  have hread : ∀ {v : GoAny C} {bs' : BoolOrString C},
      (simpleRule lib v >>= fun r => .ok ⟨[r]⟩) = .ok bs' → bs' = ⟨[ruleForAll v]⟩ := by
    intro v bs' h
    rw [simpleRule_eq, ok_bind] at h
    exact (ok.inj h).symm
  unfold RoundTrips
  rw [hmarshal]
  constructor
  · rintro ⟨j, bs', hj, hbs', hagree⟩
    have hsuffix : ∀ {v : GoAny C}, bs' = ⟨[ruleForAll v]⟩ →
        r.value = v ∧ ∀ name suffix, bs.valueWithSuffix name suffix = bs.value name := by
      rintro v rfl
      refine ⟨?_, fun name suffix => ?_⟩
      · rw [← hvalue [], ← (hagree []).1, hscalar]
      · rw [← (hagree name).2 suffix, ← (hagree name).1, hscalar, hbranch]
    cases j with
    | null =>
      rw [(hsuffix (hread hbs')).1] at hj
      cases hj
    | bool b =>
      obtain ⟨hv, hsame⟩ := hsuffix (hread hbs')
      rw [hv]
      exact ⟨.bool b, rfl, hsame⟩
    | number text => cases hbs'
    | string s =>
      obtain ⟨hv, hsame⟩ := hsuffix (hread hbs')
      rw [hv] at hj ⊢
      refine ⟨.string s, ?_, hsame⟩
      rw [GoAny.reread, hj]
      rfl
    | array elems =>
      exact absurd hj (encode_ne_array_of_unmarshalJSON hbs' ((hagree []).1.trans (hvalue [])))
    | object entries => cases hbs'
  · rintro ⟨hr, hstable, hsame⟩
    obtain ⟨j, hj, hbs'⟩ := unmarshalJSON_of_isScalar hr hstable
    refine ⟨j, _, hj, hbs', fun name => ?_⟩
    rw [hscalar, hbranch, hvalue]
    exact ⟨rfl, fun suffix => by rw [hsame, hvalue]⟩

/-- **The values that survive storage.** -/
structure Storable (bs : BoolOrString C) : Prop where
  nonempty : bs.rules ≠ []
  /-- Every value can be written and read again. -/
  encodable : ∀ r ∈ bs.rules, r.value.reread.isSome
  /-- A value in effect is read as it was. -/
  stable : ∀ name, (bs.value name).reread = some (bs.value name)
  /-- Branch suffixes have no effect. -/
  suffix : ∀ name suffix, bs.valueWithSuffix name suffix = bs.value name
  /-- A value that is written without its rule is a scalar. -/
  scalar : ∀ r, bs.rules = [r] → r.pattern = allPattern → IsScalar r.value

/-- **A value survives storage exactly when it is storable**, provided its
globs are valid UTF-8 – which they are when they come from JSON. -/
theorem roundTrips_iff (hbs : Obtained lib bs) (hvalid : ∀ r ∈ bs.rules, validString r.pattern) :
    RoundTrips lib bs ↔ Storable bs := by
  have hwf := hbs.wellFormed
  by_cases hnil : bs.rules = []
  · -- the value without rules is read back as `false`
    refine ⟨?_, fun h => absurd hnil h.nonempty⟩
    rintro ⟨j, bs', hj, hbs', hagree⟩
    rw [marshalJSON, if_pos hnil] at hj
    obtain rfl := Option.some.inj hj
    have hvalue := (hagree []).1
    rw [show unmarshalJSON lib (.bool false)
      = (simpleRule lib _ >>= fun r => ok ⟨[r]⟩) from rfl, simpleRule_eq] at hbs'
    obtain rfl := ok.inj hbs'
    rw [show bs.value [] = .nil by simp [value, matchName, hnil]] at hvalue
    cases hvalue
  by_cases hall : ∃ r, bs.rules = [r] ∧ r.pattern = allPattern
  · obtain ⟨r, hrules, hpattern⟩ := hall
    have hr : r ∈ bs.rules := hrules ▸ mem_cons_self
    have hvalue := value_of_all ((hwf r hr).compiled_eq hpattern) hrules
    rw [roundTrips_iff_of_all (hwf r hr) hpattern hrules]
    constructor
    · rintro ⟨hscalar, hstable, hsuffix⟩
      refine ⟨hnil, ?_, fun name => by rw [hvalue, hstable], hsuffix, ?_⟩
      · rw [hrules, forall_mem_singleton, hstable]
        rfl
      · intro r' hr' _
        obtain rfl := singleton_injective (hrules.symm.trans hr')
        exact hscalar
    · intro h
      exact ⟨h.scalar r hrules hpattern, hvalue [] ▸ h.stable [], h.suffix⟩
  · have hlist : WrittenAsList bs.rules :=
      ⟨hnil, fun r hrules hpattern => hall ⟨r, hrules, hpattern⟩⟩
    rw [roundTrips_iff_of_list hwf hvalid hlist]
    constructor
    · rintro ⟨hread, hstable⟩
      exact ⟨hnil, hread, fun name => (hstable name).1, fun name => (hstable name).2,
        fun r hrules hpattern => absurd hpattern (hlist.2 r hrules)⟩
    · exact fun h => ⟨h.encodable, fun name => ⟨h.stable name, h.suffix name⟩⟩

end conditions

end

/-- A glob library in which every glob except `*` is a name. -/
def literalGlobs : GlobLibrary where
  compile p := .ok fun name => p == lit "*" || name == p
  compile_all := by
    congr 1

/-- Documents without numbers. -/
def noNumbers : JsonCodec where
  Number := Empty
  Other := Empty
  parseNumber _ := none
  formatNumber := nofun
  encodeOther := nofun

/-- The rules of `[{"a": true}, {"b": "draft"}]`. -/
theorem roundTrips_without_suffix :
    let rule (pattern : String) (v : GoAny noNumbers) : Rule noNumbers :=
      ⟨lit pattern, [], fun name => lit pattern == lit "*" || name == lit pattern, v⟩
    RoundTrips literalGlobs ⟨[rule "a" (.bool true), rule "b" (.string (lit "draft"))]⟩ := by
  intro rule
  have hobtained : Obtained literalGlobs
      ⟨[rule "a" (.bool true), rule "b" (.string (lit "draft"))]⟩ :=
    .json (.array [.object [(lit "a", .bool true)], .object [(lit "b", .string (lit "draft"))]])
      rfl
  have hread : ∀ r ∈ [rule "a" (.bool true), rule "b" (.string (lit "draft"))],
      r.value.reread = some r.value := by
    simp only [forall_mem_cons, not_mem_nil, false_imp_iff, implies_true, and_true]
    exact ⟨rfl, rfl⟩
  refine (roundTrips_iff hobtained ?_).mpr ?_
  · simp only [forall_mem_cons, not_mem_nil, false_imp_iff, implies_true, and_true]
    exact ⟨by decide, by decide⟩
  · refine ⟨cons_ne_nil _ _, fun r hr => ?_, fun name => ?_, fun name suffix => ?_, nofun⟩
    · rw [hread r hr]
      rfl
    · rcases matchName_eq [rule "a" (.bool true), rule "b" (.string (lit "draft"))] name with
        hnil | ⟨r, hr, heq⟩
      · rw [value, hnil]
        rfl
      · rw [value, heq]
        exact hread r hr
    · exact matchWithSuffix_eq_matchName (by simp [rule]) name suffix

/-- `[{"a@dev": true}]` is stored as `[{"a": true}]`: the value for the branch
`main` of `a` was `nil` and becomes `true`. -/
theorem suffix_lost :
    ∃ bs bs' : BoolOrString noNumbers, ∃ j,
      BoolOrString.unmarshalJSON literalGlobs (.array [.object [(lit "a@dev", .bool true)]])
        = .ok bs ∧ bs.marshalJSON = some j ∧
      BoolOrString.unmarshalJSON literalGlobs j = .ok bs' ∧
      bs.valueWithSuffix (lit "a") (lit "main") = .nil ∧
      bs'.valueWithSuffix (lit "a") (lit "main") = .bool true :=
  ⟨_, _, _, rfl, rfl, rfl, rfl, rfl⟩

end Overridable
