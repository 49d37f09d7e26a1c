import CodeScout.Util.GoStrconv
import CodeScout.Util.GoUnicode
import Mathlib

/-!
# Step conditions of batch specs

The condition of a step is a template. Where it does not depend on earlier
steps it can be decided before any step runs: `IsStaticBool` evaluates the
actions of the template as far as it can, and if only text is left it
compares the text with `true`. When the steps run, `EvalStepCondition`
executes the template for good.

The first evaluator, `evalPipe`, is a simplified copy of the second,
`execPipe`, for literals, the fields of the repository and of the batch
change, the functions `eq`, `ne` and `not`, and the builtin functions. The
copy differs in three places. It evaluates the stages of a pipeline one by
one and keeps the last value, where a template passes the value of a stage to
the next one. It compares values of different kinds and finds them different,
where a template fails. And the empty condition is false to the first and
true to the second. `static_agrees_iff` says that these are all the
differences.
-/

namespace BatchTemplate

/-! ## Values -/

/-- The libraries that both evaluators call. -/
structure Library where
  Float64 : Type
  Complex128 : Type
  eqFloat : Float64 → Float64 → Bool
  eqComplex : Complex128 → Complex128 → Bool
  zeroFloat : Float64
  zeroComplex : Complex128
  formatFloat : Float64 → GoString
  formatComplex : Complex128 → GoString
  /-- `strings.Split` -/
  split : GoString → GoString → List GoString
  /-- `strings.ReplaceAll` -/
  replaceAll : GoString → GoString → GoString → GoString
  /-- `glob.Compile`, the pattern first. -/
  compileGlob : GoString → Option (GoString → Bool)

/-- The values of a template. -/
inductive Value (L : Library)
  | bool (b : Bool)
  | int (n : Int64)
  | float (x : L.Float64)
  | complex (x : L.Complex128)
  | string (s : GoString)
  /-- `[]string` -/
  | strings (elems : List GoString)
  /-- `fileMatchPathList` -/
  | paths (elems : List GoString)

section

variable {L : Library}

/-- `strings.Join` -/
def join (elems : List GoString) (sep : GoString) : GoString :=
  sep.intercalate elems

/-- `fmt.Fprint` -/
def Value.print : Value L → GoString
  | .bool b => if b then lit "true" else lit "false"
  | .int n => formatInt n.toInt
  | .float x => L.formatFloat x
  | .complex x => L.formatComplex x
  | .string s => s
  | .strings elems => lit "[" ++ join elems (lit " ") ++ lit "]"
  | .paths elems => join elems (lit " ")

/-- The truth of a value, for templates and for the static evaluation. -/
def Value.isTrue : Value L → Bool
  | .bool b => b
  | .int n => n != 0
  | .float x => !L.eqFloat x L.zeroFloat
  | .complex x => !L.eqComplex x L.zeroComplex
  | .string s => !s.isEmpty
  | .strings elems => !elems.isEmpty
  | .paths elems => !elems.isEmpty

/-- Comparison as the templates do it: an error for values of different basic
kinds and for lists. -/
def Value.compare : Value L → Value L → Option Bool
  | .bool a, .bool b => some (a == b)
  | .int a, .int b => some (a == b)
  | .float a, .float b => some (L.eqFloat a b)
  | .complex a, .complex b => some (L.eqComplex a b)
  | .string a, .string b => some (a == b)
  | _, _ => none

/-- Comparison of two interfaces: values of different types are different,
and lists cannot be compared. -/
def Value.interfaceEq : Value L → Value L → Option Bool
  | .bool a, .bool b => some (a == b)
  | .int a, .int b => some (a == b)
  | .float a, .float b => some (L.eqFloat a b)
  | .complex a, .complex b => some (L.eqComplex a b)
  | .string a, .string b => some (a == b)
  | .strings _, .strings _ => none
  | .paths _, .paths _ => none
  | _, _ => some false

/-! ## Templates -/

/-- A number literal as the parser leaves it. -/
structure NumberNode (L : Library) where
  isInt : Bool
  isUint : Bool
  isFloat : Bool
  isComplex : Bool
  int64 : Int64
  float64 : L.Float64
  complex128 : L.Complex128
  text : GoString

/-- The method of the parser for numbers such as `0x1f`. -/
def isHexInt (s : GoString) : Bool :=
  2 < s.length && s.head? == some 48 && (s[1]? == some 120 || s[1]? == some 88) &&
    !s.any (fun c => c == 112 || c == 80)

/-- The same for a character in quotes. -/
def isRuneInt (s : GoString) : Bool :=
  s.head? == some 39

/-- The value of a literal, by the rules of the templates. -/
def NumberNode.idealConstant (n : NumberNode L) : Option (Value L) :=
  if n.isComplex then some (.complex n.complex128)
  else if n.isFloat && !isHexInt n.text && !isRuneInt n.text &&
      n.text.any (fun c => (lit ".eEpP").contains c) then some (.float n.float64)
  else if n.isInt then some (.int n.int64)
  else none

/-- The functions of the fragment: those of the templates that the static
evaluation knows, and the builtin functions of batch specs. -/
inductive Func
  | eq
  | ne
  | not
  | join
  | split
  | replace
  | joinIf
  /-- `matches` -/
  | matchesGlob
  deriving DecidableEq

/-- The objects of a template that are known before steps run. -/
inductive Object
  | repository
  | batchChange

mutual

/-- A word of a command. -/
inductive Arg (L : Library)
  | bool (b : Bool)
  | number (n : NumberNode L)
  | string (s : GoString)
  /-- A chain such as `repository.name`. -/
  | field (object : Object) (names : List GoString)
  | identifier (f : Func)
  | pipe (p : Pipe L)

/-- The arguments of a command. -/
inductive Args (L : Library)
  | nil
  | cons (a : Arg L) (rest : Args L)

/-- A stage of a pipeline: its first word and the others. -/
inductive Command (L : Library)
  | mk (first : Arg L) (args : Args L)

/-- A pipeline without declarations. -/
inductive Pipe (L : Library)
  | first (c : Command L)
  | next (p : Pipe L) (c : Command L)

end

/-- A part of a template: a text, or a pipe in braces. -/
inductive Node (L : Library)
  | text (t : GoString)
  | action (p : Pipe L)

/-- The repository that a step runs on. -/
structure Repository where
  name : GoString
  branch : GoString
  fileMatches : List GoString

/-- The batch change that a step is part of. -/
structure BatchChangeAttributes where
  name : GoString
  description : GoString

/-- The context of a step, with the parts that depend on other steps
together. -/
structure StepContext (Steps : Type) where
  repository : Repository
  batchChange : BatchChangeAttributes
  steps : Steps

/-! ## The builtin functions -/

/-- The types of parameters. -/
inductive ParamType
  | string
  | strings
  /-- `reflect.Value` -/
  | any

/-- The value can be passed for a parameter of the type. -/
def ParamType.accepts : ParamType → Value L → Bool
  | .string, .string _ => true
  | .strings, .strings _ => true
  | .strings, .paths _ => true
  | .any, _ => true
  | _, _ => false

/-- The types of `n` arguments, if the function takes so many. -/
def Func.paramTypes (n : ℕ) : Func → Option (List ParamType)
  | .eq => if 1 ≤ n then some (.replicate n .any) else none
  | .ne => if n = 2 then some [.any, .any] else none
  | .not => if n = 1 then some [.any] else none
  | .join => if n = 2 then some [.strings, .string] else none
  | .split => if n = 2 then some [.string, .string] else none
  | .replace => if n = 3 then some [.string, .string, .string] else none
  | .joinIf => if 1 ≤ n then some (.replicate n .string) else none
  | .matchesGlob => if n = 2 then some [.string, .string] else none

/-- The first argument equals one of the others. -/
def eqAny (a : Value L) : List (Value L) → Option Bool
  | [] => some false
  | b :: rest =>
    match a.compare b with
    | some true => some true
    | some false => eqAny a rest
    | none => none

/-- The text of an argument of type `string`. -/
def Value.text : Value L → GoString
  | .string s => s
  | _ => []

/-- A call with arguments of the right types, `none` for an error. -/
def Func.call : Func → List (Value L) → Option (Value L)
  | .eq, a :: b :: rest => (eqAny a (b :: rest)).map .bool
  | .ne, [a, b] => (eqAny a [b]).map fun equal => .bool !equal
  | .not, [a] => some (.bool !a.isTrue)
  | .join, [.strings elems, .string sep] => some (.string (BatchTemplate.join elems sep))
  | .join, [.paths elems, .string sep] => some (.string (BatchTemplate.join elems sep))
  | .split, [.string s, .string sep] => some (.strings (L.split s sep))
  | .replace, [.string s, .string old, .string new] => some (.string (L.replaceAll s old new))
  | .joinIf, .string sep :: elems =>
    some (.string (BatchTemplate.join ((elems.map Value.text).filter (!·.isEmpty)) sep))
  | .matchesGlob, [.string s, .string pattern] => (L.compileGlob pattern).map fun g => .bool (g s)
  | _, _ => none

/-- All arguments have the types of their parameters. -/
def acceptsAll : List ParamType → List (Value L) → Bool
  | [], [] => true
  | t :: types, v :: vs => t.accepts v && acceptsAll types vs
  | _, _ => false

/-- A call through reflection, which panics on wrong arguments. -/
def Func.reflectCall (f : Func) (vs : List (Value L)) : Option (Value L) :=
  (f.paramTypes vs.length).bind fun types => if acceptsAll types vs then f.call vs else none

variable {Steps : Type}

/-! ## Static evaluation -/

/-- The fields that are known before the steps run. -/
def evalField (ctx : StepContext Steps) : Object → List GoString → Option (Value L)
  | .repository, [name] =>
    if name = lit "name" then some (.string ctx.repository.name) else none
  | .batchChange, [name] =>
    if name = lit "name" then some (.string ctx.batchChange.name)
    else if name = lit "description" then some (.string ctx.batchChange.description)
    else none
  | _, _ => none

/-- `eq`, as the static evaluation has it. -/
def evalEqCall : List (Value L) → Option Bool
  | [a, b] => a.interfaceEq b
  | _ => none

/-- `not`, as the static evaluation has it. -/
def evalNotCall : List (Value L) → Option (Value L)
  | [a] => some (.bool !a.isTrue)
  | _ => none

/-- A function of static arguments. Panics are recovered. -/
def evalFunction (f : Func) (vs : List (Value L)) : Option (Value L) :=
  match f with
  | .eq => (evalEqCall vs).map .bool
  | .ne => (evalEqCall vs).map fun equal => .bool !equal
  | .not => evalNotCall vs
  | _ => f.reflectCall vs

mutual

/-- The static value of a pipe, if there is one. -/
def evalPipe (ctx : StepContext Steps) : Pipe L → Option (Value L)
  | .first c => evalCmd ctx c
  -- the value of the stages before is dropped
  | .next p c => (evalPipe ctx p).bind fun _ => evalCmd ctx c

/-- The static value of a command. -/
def evalCmd (ctx : StepContext Steps) : Command L → Option (Value L)
  | .mk (.identifier f) args => (evalNodes ctx args).bind (evalFunction f)
  | .mk (.pipe _) _ => none
  | .mk first .nil => evalNode ctx first
  | .mk _ (.cons _ _) => none

/-- The static value of an argument. -/
def evalNode (ctx : StepContext Steps) : Arg L → Option (Value L)
  | .bool b => some (.bool b)
  | .number n => n.idealConstant
  | .string s => some (.string s)
  | .field object names => evalField ctx object names
  | .identifier _ => none
  | .pipe p => evalPipe ctx p

/-- The static values of all arguments. -/
def evalNodes (ctx : StepContext Steps) : Args L → Option (List (Value L))
  | .nil => some []
  | .cons a rest => (evalNode ctx a).bind fun v => (evalNodes ctx rest).map (v :: ·)

end

/-- An action that can be evaluated becomes text. -/
def rewriteNode (ctx : StepContext Steps) : Node L → Node L
  | .text t => .text t
  | .action p =>
    match evalPipe ctx p with
    | some v => .text v.print
    | none => .action p

/-- The text of a list of nodes that are all text. -/
def textOf : List (Node L) → Option GoString
  | [] => some []
  | .text t :: rest => (textOf rest).map (t ++ ·)
  | .action _ :: _ => none

/-- The output of a condition that holds. -/
def isTrueOutput (output : GoString) : Bool :=
  trimSpace output == lit "true"

/-- Whether the template is static and its value, `none` when it does not
parse. -/
def isStaticBool (parse : GoString → Option (List (Node L))) (input : GoString)
    (ctx : StepContext Steps) : Option (Bool × Bool) :=
  (parse input).map fun nodes =>
    match textOf (nodes.map (rewriteNode ctx)) with
    | some output => (true, isTrueOutput output)
    | none => (false, false)

/-! ## Execution -/

/-- `SearchResultPaths` -/
def Repository.searchResultPaths (r : Repository) : List GoString :=
  r.fileMatches.insertionSort (· ≤ ·)

/-- The entries of the maps that the functions `repository` and `batch_change`
return. -/
def lookupField (ctx : StepContext Steps) (object : Object) (name : GoString) :
    Option (Value L) :=
  match object with
  | .repository =>
    if name = lit "search_result_paths" then some (.paths ctx.repository.searchResultPaths)
    else if name = lit "name" then some (.string ctx.repository.name)
    else if name = lit "branch" then some (.string ctx.repository.branch)
    else none
  | .batchChange =>
    if name = lit "name" then some (.string ctx.batchChange.name)
    else if name = lit "description" then some (.string ctx.batchChange.description)
    else none

/-- A chain of fields. Of the values in the maps only the paths have a field,
which is their method. -/
def execField (ctx : StepContext Steps) (object : Object) : List GoString → Option (Value L)
  | [name] => lookupField ctx object name
  | [name, method] =>
    (lookupField (L := L) ctx object name).bind fun
      | .paths elems =>
        if method = lit "String" then some (.string (join elems (lit " "))) else none
      | _ => none
  | _ => none

/-- A literal for a parameter. -/
def ParamType.literal (t : ParamType) (v : Value L) : Option (Value L) :=
  if t.accepts v then some v else none

/-- How many arguments there are. -/
def Args.length : Args L → ℕ
  | .nil => 0
  | .cons _ rest => rest.length + 1

/-- What is not a function takes no arguments and no value from the stage
before. -/
def notAFunction (args : Args L) (final : Option (Value L)) (v : Option (Value L)) :
    Option (Value L) :=
  match args, final with
  | .nil, none => v
  | _, _ => none

mutual

/-- The value of a pipe when the template is executed. -/
def execPipe (ctx : StepContext Steps) : Pipe L → Option (Value L)
  | .first c => execCommand ctx none c
  | .next p c => (execPipe ctx p).bind fun v => execCommand ctx (some v) c

/-- A stage; `final` is the value of the stage before. -/
def execCommand (ctx : StepContext Steps) (final : Option (Value L)) :
    Command L → Option (Value L)
  | .mk (.identifier f) args =>
    (f.paramTypes (args.length + final.toList.length)).bind fun types =>
      (execArgs ctx types args).bind fun vs =>
        if acceptsAll (types.drop args.length) final.toList then f.call (vs ++ final.toList)
        else none
  | .mk (.field object names) args => notAFunction args final (execField ctx object names)
  | .mk (.pipe p) args => notAFunction args final (execPipe ctx p)
  | .mk (.bool b) args => notAFunction args final (some (.bool b))
  | .mk (.number n) args => notAFunction args final n.idealConstant
  | .mk (.string s) args => notAFunction args final (some (.string s))

/-- An argument for a parameter of a type. -/
def execArg (ctx : StepContext Steps) (t : ParamType) : Arg L → Option (Value L)
  | .bool b => t.literal (.bool b)
  | .number n => n.idealConstant.bind t.literal
  | .string s => t.literal (.string s)
  | .field object names => (execField ctx object names).bind t.literal
  -- a function without arguments
  | .identifier f =>
    ((f.paramTypes 0).bind fun _ => f.call []).bind t.literal
  | .pipe p => (execPipe ctx p).bind t.literal

/-- The values of arguments, by the types of the parameters. -/
def execArgs (ctx : StepContext Steps) :
    List ParamType → Args L → Option (List (Value L))
  | t :: types, .cons a rest =>
    (execArg ctx t a).bind fun v => (execArgs ctx types rest).map (v :: ·)
  | _, .nil => some []
  | [], .cons _ _ => none

end

/-- The output of a template, `none` for an error. -/
def render (ctx : StepContext Steps) : List (Node L) → Option GoString
  | [] => some []
  | .text t :: rest => (render ctx rest).map (t ++ ·)
  | .action p :: rest =>
    (execPipe ctx p).bind fun v => (render ctx rest).map (v.print ++ ·)

/-- **`EvalStepCondition`.** -/
def evalStepCondition (parse : GoString → Option (List (Node L))) (condition : GoString)
    (ctx : StepContext Steps) : Option Bool :=
  if condition = [] then some true
  else (parse condition).bind fun nodes => (render ctx nodes).map isTrueOutput

/-! ## Where the evaluators agree -/

/-- The kinds of values. -/
inductive Kind
  | bool
  | int
  | float
  | complex
  | string
  | strings
  | paths
  deriving DecidableEq

/-- The kind of a value. -/
def Value.kind : Value L → Kind
  | .bool _ => .bool
  | .int _ => .int
  | .float _ => .float
  | .complex _ => .complex
  | .string _ => .string
  | .strings _ => .strings
  | .paths _ => .paths

/-- The kind of what a function returns. -/
def Func.kind : Func → Kind
  | .eq | .ne | .not | .matchesGlob => .bool
  | .join | .replace | .joinIf => .string
  | .split => .strings

/-- The kind of a field: only the search results are a list. -/
def Object.fieldKind : Object → List GoString → Kind
  | .repository, [name] => if name = lit "search_result_paths" then .paths else .string
  | _, _ => .string

mutual

/-- The kind of a pipe is that of its last stage. -/
def Pipe.kind : Pipe L → Kind
  | .first c => c.kind
  | .next _ c => c.kind

/-- The kind of a command is that of its first word. -/
def Command.kind : Command L → Kind
  | .mk first _ => first.kind

/-- The kind of a word. -/
def Arg.kind : Arg L → Kind
  | .bool _ => .bool
  | .number n => n.idealConstant.elim .int Value.kind
  | .string _ => .string
  | .field object names => object.fieldKind names
  | .identifier f => f.kind
  | .pipe p => p.kind

end

/-- The kinds of arguments. -/
def Args.kinds : Args L → List Kind
  | .nil => []
  | .cons a rest => a.kind :: rest.kinds

/-- The arguments of `eq` and `ne` are of one kind. -/
def Func.sameKinds : Func → List Kind → Bool
  | .eq, [a, b] => a == b
  | .ne, [a, b] => a == b
  | _, _ => true

mutual

/-- Every pipeline has one stage, also those in parentheses. -/
def Pipe.single : Pipe L → Bool
  | .first c => c.single
  | .next _ _ => false

/-- All pipes in a command have one stage. -/
def Command.single : Command L → Bool
  | .mk first args => first.single && args.single

/-- The same for an argument. -/
def Arg.single : Arg L → Bool
  | .pipe p => p.single
  | _ => true

/-- The same for arguments. -/
def Args.single : Args L → Bool
  | .nil => true
  | .cons a rest => a.single && rest.single

end

mutual

/-- Every call of `eq` and `ne` compares words of one kind. -/
def Pipe.sameKinds : Pipe L → Bool
  | .first c => c.sameKinds
  | .next p c => p.sameKinds && c.sameKinds

/-- All calls in a command compare words of one kind. -/
def Command.sameKinds : Command L → Bool
  | .mk (.identifier f) args => args.sameKinds && f.sameKinds args.kinds
  | .mk first args => first.sameKinds && args.sameKinds

/-- The same for an argument. -/
def Arg.sameKinds : Arg L → Bool
  | .pipe p => p.sameKinds
  | _ => true

/-- The same for arguments. -/
def Args.sameKinds : Args L → Bool
  | .nil => true
  | .cons a rest => a.sameKinds && rest.sameKinds

end

/-- The same for a part of a template. -/
def Node.single : Node L → Bool
  | .text _ => true
  | .action p => p.single

/-- All calls in a part of a template compare words of one kind. -/
def Node.sameKinds : Node L → Bool
  | .text _ => true
  | .action p => p.sameKinds

/-- Where interfaces can be compared, templates compare values of one kind and
with the same result. -/
theorem compare_of_interfaceEq {a b : Value L} {equal : Bool}
    (h : a.interfaceEq b = some equal) :
    a.compare b = if a.kind == b.kind then some equal else none := by
  cases a <;> cases b <;> simp_all [Value.interfaceEq, Value.compare, Value.kind]

theorem eqAny_singleton (a b : Value L) : eqAny a [b] = a.compare b := by
  rw [eqAny]
  cases a.compare b with
  | none => rfl
  | some equal => cases equal <;> rfl

variable {vs : List (Value L)}

theorem exists_of_evalEqCall {equal : Bool}
    (h : evalEqCall vs = some equal) : ∃ a b, vs = [a, b] ∧ a.interfaceEq b = some equal := by
  match vs with
  | [a, b] => exact ⟨a, b, rfl, h⟩
  | [] | [_] | _ :: _ :: _ :: _ => cases h

variable {v : Value L}

theorem call_of_reflectCall {f : Func} (h : f.reflectCall vs = some v) :
    ∃ types, f.paramTypes vs.length = some types ∧ acceptsAll types vs = true ∧
      f.call vs = some v := by
  obtain ⟨types, htypes, h⟩ := Option.bind_eq_some_iff.mp h
  split_ifs at h with haccepts
  exact ⟨types, htypes, haccepts, h⟩

/-- **A static call is a call of the template**, unless it compares values of
different kinds. -/
theorem call_of_evalFunction {f : Func} (h : evalFunction f vs = some v) :
    ∃ types, f.paramTypes vs.length = some types ∧ acceptsAll types vs = true ∧
      f.call vs = if f.sameKinds (vs.map Value.kind) then some v else none := by
  cases f with
  | eq | ne =>
    obtain ⟨equal, hequal, rfl⟩ := Option.map_eq_some_iff.mp h
    obtain ⟨a, b, rfl, hab⟩ := exists_of_evalEqCall hequal
    refine ⟨[.any, .any], rfl, rfl, ?_⟩
    rw [Func.call, eqAny_singleton, compare_of_interfaceEq hab, List.map_cons, List.map_singleton,
      Func.sameKinds]
    split_ifs <;> rfl
  | not =>
    match vs with
    | [a] => exact ⟨[.any], rfl, rfl, h⟩
    | [] | _ :: _ :: _ => cases h
  | join | split | replace | joinIf | matchesGlob =>
    obtain ⟨types, htypes, haccepts, hcall⟩ := call_of_reflectCall h
    exact ⟨types, htypes, haccepts, hcall⟩

theorem kind_of_call {f : Func} (h : f.call vs = some v) : f.kind = v.kind := by
  rw [Func.call.eq_def] at h
  split at h <;> simp only [Option.map_eq_some_iff, Option.some.injEq, reduceCtorEq] at h
  case h_3 | h_4 | h_5 | h_6 | h_7 | h_8 => exact h ▸ rfl
  all_goals
    obtain ⟨_, _, rfl⟩ := h
    rfl

theorem kind_of_evalFunction {f : Func} (h : evalFunction f vs = some v) : f.kind = v.kind := by
  cases f with
  | eq | ne =>
    obtain ⟨_, _, rfl⟩ := Option.map_eq_some_iff.mp h
    rfl
  | not =>
    match vs with
    | [a] => exact Option.some.inj h ▸ rfl
    | [] | _ :: _ :: _ => cases h
  | join | split | replace | joinIf | matchesGlob =>
    obtain ⟨_, _, _, hcall⟩ := call_of_reflectCall h
    exact kind_of_call hcall

/-- The two contexts agree on what is known before the steps run. -/
structure SameStart (ctx full : StepContext Steps) : Prop where
  repository : full.repository = ctx.repository
  batchChange : full.batchChange = ctx.batchChange

variable {ctx full : StepContext Steps}

theorem kind_of_evalField {object : Object} {names : List GoString}
    (h : evalField ctx object names = some v) : object.fieldKind names = v.kind := by
  cases object with
  | repository =>
    match names with
    | [name] =>
      rw [evalField] at h
      split_ifs at h with hname
      obtain rfl := Option.some.inj h
      rw [hname]
      rfl
    | [] | _ :: _ :: _ => cases h
  | batchChange =>
    match names with
    | [name] =>
      rw [evalField] at h
      split_ifs at h <;> obtain rfl := Option.some.inj h <;> rfl
    | [] | _ :: _ :: _ => cases h

mutual

/-- **The words say the kind of the static value.** -/
theorem kind_of_evalPipe :
    ∀ {p : Pipe L} {v : Value L}, evalPipe ctx p = some v → p.kind = v.kind
  | .first _, _, h => kind_of_evalCmd h
  | .next _ _, _, h => by
    obtain ⟨_, _, h⟩ := Option.bind_eq_some_iff.mp h
    exact kind_of_evalCmd h

theorem kind_of_evalCmd :
    ∀ {c : Command L} {v : Value L}, evalCmd ctx c = some v → c.kind = v.kind
  | .mk (.identifier _) _, _, h => by
    obtain ⟨_, _, h⟩ := Option.bind_eq_some_iff.mp h
    exact kind_of_evalFunction h
  | .mk (.pipe _) _, _, h => by cases h
  | .mk (.bool b) .nil, _, h => kind_of_evalNode (a := .bool b) h
  | .mk (.number n) .nil, _, h => kind_of_evalNode (a := .number n) h
  | .mk (.string s) .nil, _, h => kind_of_evalNode (a := .string s) h
  | .mk (.field object names) .nil, _, h => kind_of_evalNode (a := .field object names) h
  | .mk (.bool _) (.cons _ _), _, h => by cases h
  | .mk (.number _) (.cons _ _), _, h => by cases h
  | .mk (.string _) (.cons _ _), _, h => by cases h
  | .mk (.field _ _) (.cons _ _), _, h => by cases h

theorem kind_of_evalNode :
    ∀ {a : Arg L} {v : Value L}, evalNode ctx a = some v → a.kind = v.kind
  | .bool _, _, h => Option.some.inj h ▸ rfl
  | .number n, _, h => by
    rw [Arg.kind, show n.idealConstant = some _ from h]
    rfl
  | .string _, _, h => Option.some.inj h ▸ rfl
  | .field _ _, _, h => kind_of_evalField h
  | .identifier _, _, h => by cases h
  | .pipe _, _, h => kind_of_evalPipe h

end

theorem kinds_of_evalNodes :
    ∀ {args : Args L} {vs : List (Value L)}, evalNodes ctx args = some vs →
      args.kinds = vs.map Value.kind
  | .nil, _, h => Option.some.inj h ▸ rfl
  | .cons _ _, _, h => by
    obtain ⟨_, hv, h⟩ := Option.bind_eq_some_iff.mp h
    obtain ⟨_, hvs, rfl⟩ := Option.map_eq_some_iff.mp h
    rw [Args.kinds, kind_of_evalNode hv, kinds_of_evalNodes hvs, List.map_cons]

theorem execField_of_evalField (hsame : SameStart ctx full) {object : Object}
    {names : List GoString} (h : evalField ctx object names = some v) :
    execField full object names = some v := by
  cases object with
  | repository =>
    match names with
    | [name] =>
      rw [evalField] at h
      split_ifs at h with hname
      subst hname
      rw [execField, lookupField, if_neg (by decide), if_pos rfl, hsame.repository]
      exact h
    | [] | _ :: _ :: _ => cases h
  | batchChange =>
    match names with
    | [name] =>
      rw [execField, lookupField, hsame.batchChange]
      exact h
    | [] | _ :: _ :: _ => cases h

theorem literal_of_accepts {t : ParamType} (h : t.accepts v = true) :
    t.literal v = some v :=
  if_pos h

theorem length_of_acceptsAll :
    ∀ {types : List ParamType} {vs : List (Value L)}, acceptsAll types vs = true →
      types.length = vs.length
  | [], [], _ => rfl
  | _ :: _, _ :: _, h => congrArg (· + 1) (length_of_acceptsAll (Bool.and_eq_true _ _ ▸ h).2)

theorem length_of_evalNodes :
    ∀ {args : Args L} {vs : List (Value L)}, evalNodes ctx args = some vs →
      args.length = vs.length
  | .nil, vs, h => by
    obtain rfl := Option.some.inj h
    rfl
  | .cons a rest, vs, h => by
    obtain ⟨v, -, h⟩ := Option.bind_eq_some_iff.mp h
    obtain ⟨vs, hvs, rfl⟩ := Option.map_eq_some_iff.mp h
    exact congrArg (· + 1) (length_of_evalNodes hvs)

mutual

/-- **A pipeline of one stage has the value of the static evaluation**, or
fails when it compares values of different kinds. One case for each word of
the language; calls are `call_of_evalFunction`. -/
theorem execPipe_of_evalPipe (hsame : SameStart ctx full) :
    ∀ {p : Pipe L} {v : Value L}, p.single = true → evalPipe ctx p = some v →
      execPipe full p = if p.sameKinds then some v else none
  | .first _, _, hsingle, heval => execCommand_of_evalCmd hsame hsingle heval
  | .next _ _, _, hsingle, _ => nomatch hsingle

theorem execCommand_of_evalCmd (hsame : SameStart ctx full) :
    ∀ {c : Command L} {v : Value L}, c.single = true → evalCmd ctx c = some v →
      execCommand full none c = if c.sameKinds then some v else none
  | .mk (.identifier f) args, v, hsingle, heval => by
    obtain ⟨vs, hvs, hcall⟩ := Option.bind_eq_some_iff.mp heval
    obtain ⟨types, htypes, haccepts, hreal⟩ := call_of_evalFunction hcall
    have hlength : args.length = vs.length := length_of_evalNodes hvs
    have hdrop : types.drop args.length = [] := by
      rw [List.drop_eq_nil_iff, hlength]
      exact (length_of_acceptsAll haccepts).le
    have hsum : args.length + (none : Option (Value L)).toList.length = vs.length := hlength
    have hargs := execArgs_of_evalNodes hsame (by simpa [Command.single, Arg.single] using hsingle)
      hvs haccepts
    rw [execCommand, hsum, htypes, Option.bind_some, hargs, hdrop, Command.sameKinds,
      kinds_of_evalNodes hvs]
    by_cases hkinds : args.sameKinds = true
    · rw [if_pos hkinds, Option.bind_some, hkinds, Bool.true_and]
      exact (congrArg f.call (List.append_nil vs)).trans hreal
    · rw [if_neg hkinds, Bool.eq_false_iff.mpr hkinds]
      rfl
  | .mk (.pipe _) _, _, _, heval => by cases heval
  | .mk (.bool _) .nil, _, _, heval => heval
  | .mk (.number _) .nil, _, _, heval => heval
  | .mk (.string _) .nil, _, _, heval => heval
  | .mk (.field _ _) .nil, _, _, heval => execField_of_evalField hsame heval
  | .mk (.bool _) (.cons _ _), _, _, heval => by cases heval
  | .mk (.number _) (.cons _ _), _, _, heval => by cases heval
  | .mk (.string _) (.cons _ _), _, _, heval => by cases heval
  | .mk (.field _ _) (.cons _ _), _, _, heval => by cases heval

theorem execArg_of_evalNode (hsame : SameStart ctx full) :
    ∀ {a : Arg L} {t : ParamType} {v : Value L}, a.single = true → evalNode ctx a = some v →
      t.accepts v = true → execArg full t a = if a.sameKinds then some v else none
  | .bool _, _, v, _, heval, haccepts => by
    obtain rfl := Option.some.inj heval
    exact literal_of_accepts haccepts
  | .number n, _, v, _, heval, haccepts => by
    rw [execArg, show n.idealConstant = some v from heval]
    exact literal_of_accepts haccepts
  | .string _, _, v, _, heval, haccepts => by
    obtain rfl := Option.some.inj heval
    exact literal_of_accepts haccepts
  | .field _ _, _, v, _, heval, haccepts => by
    rw [execArg, execField_of_evalField hsame heval]
    exact literal_of_accepts haccepts
  | .identifier _, _, _, _, heval, _ => by cases heval
  | .pipe _, _, _, hsingle, heval, haccepts => by
    rw [execArg, execPipe_of_evalPipe hsame hsingle heval, Arg.sameKinds]
    split_ifs
    · exact literal_of_accepts haccepts
    · rfl

theorem execArgs_of_evalNodes (hsame : SameStart ctx full) :
    ∀ {args : Args L} {types : List ParamType} {vs : List (Value L)}, args.single = true →
      evalNodes ctx args = some vs → acceptsAll types vs = true →
      execArgs full types args = if args.sameKinds then some vs else none
  | .nil, types, _, _, heval, _ => by
    obtain rfl := Option.some.inj heval
    rw [execArgs.eq_def]
    cases types <;> rfl
  | .cons a rest, types, _, hsingle, heval, haccepts => by
    obtain ⟨v, hv, heval⟩ := Option.bind_eq_some_iff.mp heval
    obtain ⟨vs, hvs, rfl⟩ := Option.map_eq_some_iff.mp heval
    rw [Args.single, Bool.and_eq_true] at hsingle
    cases types with
    | nil => cases haccepts
    | cons t types =>
      rw [acceptsAll, Bool.and_eq_true] at haccepts
      rw [execArgs, execArg_of_evalNode hsame hsingle.1 hv haccepts.1,
        execArgs_of_evalNodes hsame hsingle.2 hvs haccepts.2, Args.sameKinds]
      cases a.sameKinds <;> cases rest.sameKinds <;> rfl

end

/-- The output of a static template is its text. -/
theorem render_of_textOf (hsame : SameStart ctx full) {nodes : List (Node L)}
    (hsingle : nodes.all Node.single = true) :
    ∀ {output : GoString}, textOf (nodes.map (rewriteNode ctx)) = some output →
      render full nodes = if nodes.all (Node.sameKinds) then some output else none := by
  induction nodes with
  | nil => exact fun h => h
  | cons node nodes ih =>
    intro output houtput
    rw [List.all_cons, Bool.and_eq_true] at hsingle
    cases node with
    | text t =>
      obtain ⟨rest, hrest, rfl⟩ := Option.map_eq_some_iff.mp houtput
      rw [render, ih hsingle.2 hrest, List.all_cons, Node.sameKinds, Bool.true_and]
      split_ifs <;> rfl
    | action p =>
      rw [List.map_cons, rewriteNode] at houtput
      cases hv : evalPipe ctx p with
      | none =>
        rw [hv] at houtput
        cases houtput
      | some v =>
        rw [hv] at houtput
        obtain ⟨rest, hrest, rfl⟩ := Option.map_eq_some_iff.mp houtput
        rw [render, execPipe_of_evalPipe hsame hsingle.1 hv, ih hsingle.2 hrest, List.all_cons,
          Node.sameKinds]
        cases p.sameKinds <;> cases nodes.all (Node.sameKinds) <;> rfl

/-- **Static evaluation agrees with execution exactly when the condition is
not empty and all comparisons are between words of one kind**, for templates
whose pipelines have one stage. The empty text has no nodes. -/
theorem static_agrees_iff {parse : GoString → Option (List (Node L))} {input : GoString}
    {nodes : List (Node L)} {b : Bool} (hstatic : isStaticBool parse input ctx = some (true, b))
    (hparse : parse input = some nodes) (hempty : input = [] → nodes = [])
    (hsingle : nodes.all Node.single = true) :
    (∀ full : StepContext Steps, SameStart ctx full → evalStepCondition parse input full = some b)
      ↔ input ≠ [] ∧ nodes.all Node.sameKinds = true := by
  rw [isStaticBool, hparse, Option.map_some] at hstatic
  obtain ⟨output, houtput, rfl⟩ : ∃ output,
      textOf (nodes.map (rewriteNode ctx)) = some output ∧ isTrueOutput output = b := by
    split at hstatic
    case h_1 output houtput =>
      exact ⟨output, houtput, (Prod.ext_iff.mp (Option.some.inj hstatic)).2⟩
    case h_2 => cases hstatic
  have hcondition : ∀ full : StepContext Steps, SameStart ctx full → input ≠ [] →
      evalStepCondition parse input full
        = if nodes.all Node.sameKinds then some (isTrueOutput output) else none := by
    intro full hsame hinput
    rw [evalStepCondition, if_neg hinput, hparse, Option.bind_some,
      render_of_textOf hsame hsingle houtput]
    split_ifs <;> rfl
  constructor
  · intro hagree
    have hctx := hagree ctx ⟨rfl, rfl⟩
    -- the empty condition is true when the steps run, and no text is not `true`
    have hinput : input ≠ [] := by
      intro hinput
      rw [hempty hinput] at houtput
      rw [evalStepCondition, if_pos hinput, ← Option.some.inj houtput] at hctx
      exact absurd hctx (by decide)
    refine ⟨hinput, ?_⟩
    rw [hcondition ctx ⟨rfl, rfl⟩ hinput] at hctx
    by_contra hkinds
    rw [if_neg hkinds] at hctx
    cases hctx
  · rintro ⟨hinput, hkinds⟩ full hsame
    rw [hcondition full hsame hinput, if_pos hkinds]

end

/-- A library without floating-point numbers. -/
def sampleLibrary : Library where
  Float64 := Unit
  Complex128 := Unit
  eqFloat _ _ := true
  eqComplex _ _ := true
  zeroFloat := ()
  zeroComplex := ()
  formatFloat _ := lit "0"
  formatComplex _ := lit "(0+0i)"
  split s _ := [s]
  replaceAll s _ _ := s
  compileGlob p := some fun s => s == p

/-- A repository and a batch change. -/
def sampleContext : StepContext Unit where
  repository := ⟨lit "r", lit "main", []⟩
  batchChange := ⟨lit "b", lit "d"⟩
  steps := ()

/-- The condition `${{ eq repository.name "r" }}`. -/
def sampleCondition : GoString := lit "$\x7b\x7b eq repository.name \"r\" \x7d\x7d"

/-- A parser that knows the sample condition. -/
def sampleParse (input : GoString) : Option (List (Node sampleLibrary)) :=
  if input = sampleCondition then
    some [.action (.first (.mk (.identifier .eq)
      (.cons (.field .repository [lit "name"]) (.cons (.string (lit "r")) .nil))))]
  else none

theorem static_agrees_sample :
    evalStepCondition sampleParse sampleCondition sampleContext = some true :=
  (static_agrees_iff (by decide +kernel) (if_pos rfl)
    (fun hempty => absurd hempty (by decide)) rfl).mpr
    ⟨by decide, by decide +kernel⟩ sampleContext ⟨rfl, rfl⟩

/-- The condition `${{ "x" | join_if "" "true" }}` is true to the static
evaluation, and false to the template, which joins `true` and `x`. -/
theorem static_disagrees_pipeline :
    let nodes : List (Node sampleLibrary) := [.action (.next
      (.first (.mk (.string (lit "x")) .nil))
      (.mk (.identifier .joinIf) (.cons (.string []) (.cons (.string (lit "true")) .nil))))]
    let input : GoString := lit "$\x7b\x7b \"x\" | join_if \"\" \"true\" \x7d\x7d"
    let parse : GoString → Option (List (Node sampleLibrary)) :=
      fun s => if s = input then some nodes else none
    isStaticBool parse input sampleContext = some (true, true) ∧
      evalStepCondition parse input sampleContext = some false := by
  decide +kernel

end BatchTemplate
