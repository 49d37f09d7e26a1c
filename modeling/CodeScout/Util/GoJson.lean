import CodeScout.Util.GoUtf8
import Mathlib

/-!
# JSON documents and Go values

`encoding/json` reads a document into a value of type `any` and writes a
value as a document. A document is a tree here, its numbers are the texts of
number literals, and its strings are what the decoder makes of them. The
texts of numbers are read and written by a `JsonCodec`, which also says how
values of other Go types are written: such values are never read from a
document, but a program can have them from elsewhere.

What is written can be read back differently, since a string that is not
valid UTF-8 is written with replacements. What is read and written again
does not grow (`size_encode_decode`).
-/

/-- A JSON document. -/
inductive Json
  | null
  | bool (b : Bool)
  | number (text : GoString)
  | string (s : GoString)
  | array (elems : List Json)
  | object (entries : List (GoString × Json))

mutual

/-- The number of nodes of a document. -/
def Json.size : Json → ℕ
  | .array elems => sizeElems elems + 1
  | .object entries => sizeEntries entries + 1
  | _ => 1

def Json.sizeElems : List Json → ℕ
  | [] => 0
  | j :: rest => j.size + sizeElems rest

def Json.sizeEntries : List (GoString × Json) → ℕ
  | [] => 0
  | (_, j) :: rest => j.size + sizeEntries rest

end

theorem Json.size_le_sizeElems {j : Json} :
    ∀ {elems : List Json}, j ∈ elems → j.size ≤ Json.sizeElems elems := by
  intro elems
  induction elems with
  | nil => exact nofun
  | cons j' elems ih =>
    intro hj
    rcases List.mem_cons.mp hj with rfl | hj
    · exact Nat.le_add_right _ _
    · exact (ih hj).trans (Nat.le_add_left _ _)

/-- The parts of `encoding/json` that are not modelled. -/
structure JsonCodec where
  /-- `float64` -/
  Number : Type
  /-- The values of the types that the decoder does not use. -/
  Other : Type
  parseNumber : GoString → Option Number
  formatNumber : Number → Option GoString
  encodeOther : Other → Option Json

/-- A value of type `any`. A map is the list of its entries in the order of
the keys. -/
inductive GoAny (C : JsonCodec)
  | nil
  | bool (b : Bool)
  | number (x : C.Number)
  | string (s : GoString)
  | slice (elems : List (GoAny C))
  | map (entries : List (GoString × GoAny C))
  | other (x : C.Other)

namespace GoAny

variable {C : JsonCodec}

/-- A string as it is written: what is not valid UTF-8 is replaced. -/
def encodeString (s : GoString) : GoString :=
  ofRunes ((runes s).map Rune.value)

theorem encodeString_of_valid {s : GoString} (h : validString s) : encodeString s = s :=
  (ofRunes_runes s.length le_rfl h).1

/-- The map with the entries of an object: the last entry of a key counts. -/
def mapOf {α : Type} : List (GoString × α) → List (GoString × α)
  | [] => []
  | e :: entries =>
    if (mapOf entries).any (·.1 == e.1) then mapOf entries
    else (mapOf entries).orderedInsert (fun a b => a.1 ≤ b.1) e

mutual

/-- `json.Unmarshal` into a variable of type `any`. -/
def decode (C : JsonCodec) : Json → Option (GoAny C)
  | .null => some .nil
  | .bool b => some (.bool b)
  | .number text => (C.parseNumber text).map .number
  | .string s => some (.string s)
  | .array elems => (decodeElems C elems).map .slice
  | .object entries => (decodeEntries C entries).map fun entries => .map (mapOf entries)

def decodeElems (C : JsonCodec) : List Json → Option (List (GoAny C))
  | [] => some []
  | j :: rest => (decode C j).bind fun v => (decodeElems C rest).map (v :: ·)

def decodeEntries (C : JsonCodec) : List (GoString × Json) → Option (List (GoString × GoAny C))
  | [] => some []
  | (k, j) :: rest => (decode C j).bind fun v => (decodeEntries C rest).map ((k, v) :: ·)

end

mutual

/-- `json.Marshal`. -/
def encode : GoAny C → Option Json
  | .nil => some .null
  | .bool b => some (.bool b)
  | .number x => (C.formatNumber x).map .number
  | .string s => some (.string (encodeString s))
  | .slice elems => (encodeElems elems).map .array
  | .map entries => (encodeEntries entries).map .object
  | .other x => C.encodeOther x

def encodeElems : List (GoAny C) → Option (List Json)
  | [] => some []
  | v :: rest => (encode v).bind fun j => (encodeElems rest).map (j :: ·)

def encodeEntries : List (GoString × GoAny C) → Option (List (GoString × Json))
  | [] => some []
  | (k, v) :: rest =>
    (encode v).bind fun j => (encodeEntries rest).map ((encodeString k, j) :: ·)

end

/-- A value that is written and read again. -/
def reread (v : GoAny C) : Option (GoAny C) :=
  v.encode.bind (decode C)

/-- An entry is written as long wherever it is put. -/
theorem encodeEntries_orderedInsert {r : GoString × GoAny C → GoString × GoAny C → Prop}
    [DecidableRel r] {e : GoString × GoAny C} :
    ∀ {entries : List (GoString × GoAny C)} {written : List (GoString × Json)},
      encodeEntries (entries.orderedInsert r e) = some written →
      ∃ j rest, encode e.2 = some j ∧ encodeEntries entries = some rest ∧
        Json.sizeEntries written = j.size + Json.sizeEntries rest := by
  intro entries
  induction entries with
  | nil =>
    intro written h
    simp only [List.orderedInsert, encodeEntries, Option.bind_eq_some_iff] at h
    obtain ⟨j, hj, hwritten⟩ := h
    obtain rfl := Option.some.inj hwritten
    exact ⟨j, [], hj, rfl, rfl⟩
  | cons e' entries ih =>
    intro written h
    rw [List.orderedInsert] at h
    split_ifs at h with hle
    · obtain ⟨j, hj, h⟩ := Option.bind_eq_some_iff.mp h
      obtain ⟨rest, hrest, rfl⟩ := Option.map_eq_some_iff.mp h
      exact ⟨j, rest, hj, hrest, rfl⟩
    · obtain ⟨j', hj', h⟩ := Option.bind_eq_some_iff.mp h
      obtain ⟨written', hwritten, rfl⟩ := Option.map_eq_some_iff.mp h
      obtain ⟨j, rest, hj, hrest, hsize⟩ := ih hwritten
      refine ⟨j, (encodeString e'.1, j') :: rest, hj, ?_, ?_⟩
      · rw [encodeEntries, hj', hrest]
        rfl
      · rw [Json.sizeEntries, Json.sizeEntries, hsize]
        omega

theorem mem_of_mem_mapOf {α : Type} {e : GoString × α} :
    ∀ {entries : List (GoString × α)}, e ∈ mapOf entries → e ∈ entries := by
  intro entries
  induction entries with
  | nil => exact id
  | cons e' entries ih =>
    intro he
    rw [mapOf] at he
    split_ifs at he with hany
    · exact List.mem_cons_of_mem _ (ih he)
    · exact ((List.mem_orderedInsert _).mp he).elim (fun heq => heq ▸ List.mem_cons_self)
        fun hmem => List.mem_cons_of_mem _ (ih hmem)

theorem exists_of_mem_decodeEntries {k : GoString} {v : GoAny C} :
    ∀ {entries : List (GoString × Json)} {vs : List (GoString × GoAny C)},
      decodeEntries C entries = some vs → (k, v) ∈ vs →
      ∃ j, decode C j = some v ∧ j.size ≤ Json.sizeEntries entries := by
  intro entries
  induction entries with
  | nil =>
    intro vs hdecode hv
    obtain rfl := Option.some.inj hdecode
    exact absurd hv List.not_mem_nil
  | cons e entries ih =>
    intro vs hdecode hv
    obtain ⟨v', hv', hdecode⟩ := Option.bind_eq_some_iff.mp hdecode
    obtain ⟨vs, hvs, rfl⟩ := Option.map_eq_some_iff.mp hdecode
    rcases List.mem_cons.mp hv with heq | hv
    · exact ⟨e.2, hv'.trans (congrArg some (Prod.ext_iff.mp heq).2.symm), Nat.le_add_right _ _⟩
    · obtain ⟨j, hj, hsize⟩ := ih hvs hv
      exact ⟨j, hj, hsize.trans (Nat.le_add_left _ _)⟩

mutual

/-- **What is read and written again does not grow.** -/
theorem size_encode_decode {j j' : Json} {v : GoAny C} (hdecode : decode C j = some v)
    (hencode : encode v = some j') : j'.size ≤ j.size := by
  match j with
  | .null | .bool _ | .string _ =>
    obtain rfl := Option.some.inj hdecode
    obtain rfl := Option.some.inj hencode
    exact le_rfl
  | .number text =>
    obtain ⟨x, -, rfl⟩ := Option.map_eq_some_iff.mp hdecode
    obtain ⟨text', -, rfl⟩ := Option.map_eq_some_iff.mp hencode
    exact le_rfl
  | .array elems =>
    obtain ⟨vs, hvs, rfl⟩ := Option.map_eq_some_iff.mp hdecode
    obtain ⟨elems', helems, rfl⟩ := Option.map_eq_some_iff.mp hencode
    exact Nat.succ_le_succ (sizeElems_encode_decode hvs helems)
  | .object entries =>
    obtain ⟨vs, hvs, rfl⟩ := Option.map_eq_some_iff.mp hdecode
    obtain ⟨entries', hentries, rfl⟩ := Option.map_eq_some_iff.mp hencode
    exact Nat.succ_le_succ (sizeEntries_encode_decode hvs hentries)

theorem sizeElems_encode_decode {elems elems' : List Json} {vs : List (GoAny C)}
    (hdecode : decodeElems C elems = some vs) (hencode : encodeElems vs = some elems') :
    Json.sizeElems elems' ≤ Json.sizeElems elems := by
  match elems with
  | [] =>
    obtain rfl := Option.some.inj hdecode
    obtain rfl := Option.some.inj hencode
    exact le_rfl
  | j :: rest =>
    obtain ⟨v, hv, hdecode⟩ := Option.bind_eq_some_iff.mp hdecode
    obtain ⟨vs, hvs, rfl⟩ := Option.map_eq_some_iff.mp hdecode
    obtain ⟨j', hj', hencode⟩ := Option.bind_eq_some_iff.mp hencode
    obtain ⟨rest', hrest, rfl⟩ := Option.map_eq_some_iff.mp hencode
    exact Nat.add_le_add (size_encode_decode hv hj') (sizeElems_encode_decode hvs hrest)

theorem sizeEntries_encode_decode {entries entries' : List (GoString × Json)}
    {vs : List (GoString × GoAny C)} (hdecode : decodeEntries C entries = some vs)
    (hencode : encodeEntries (mapOf vs) = some entries') :
    Json.sizeEntries entries' ≤ Json.sizeEntries entries := by
  match entries with
  | [] =>
    obtain rfl := Option.some.inj hdecode
    obtain rfl := Option.some.inj hencode
    exact le_rfl
  | (k, j) :: rest =>
    obtain ⟨v, hv, hdecode⟩ := Option.bind_eq_some_iff.mp hdecode
    obtain ⟨vs, hvs, rfl⟩ := Option.map_eq_some_iff.mp hdecode
    rw [mapOf] at hencode
    split_ifs at hencode with hany
    · exact (sizeEntries_encode_decode hvs hencode).trans (Nat.le_add_left _ _)
    · obtain ⟨j', rest', hj', hrest, hsize⟩ := encodeEntries_orderedInsert hencode
      rw [hsize]
      exact Nat.add_le_add (size_encode_decode hv hj') (sizeEntries_encode_decode hvs hrest)

end

end GoAny
