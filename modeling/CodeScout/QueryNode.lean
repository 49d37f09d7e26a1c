import CodeScout.Util.GoString
import Mathlib

/-!
# The query tree and its reducing constructor

A search query is parsed to a list of nodes: search patterns, parameters
such as `repo:foo`, and operators over nodes. Every pass over the tree
that builds an operator builds it with `NewOperator`, which does not just
wrap its operands – it flattens a nested operator of the same kind into
its parent and drops leaves whose value is empty, one of them at a time
through `reduce` and until nothing changes.

What a call of `reduce` can do is said once, by `ReduceStep`: remove one
leaf with an empty value, or splice the operands of one operator of the
kind being built. `reduce_spec` says that a call that reports a change
did one such step, and `newOperator_spec` that the constructor did a
sequence of them and then wrapped what was left. The passes above read
only that.

Slices are values here. The one place where the source shares a backing
array between two of them is `append(operator.Operands, right...)`, and
the slice it returns is copied by the next call of `reduce` before
anything else is appended to either.
-/

namespace Query

/-! ## Nodes -/

/-- The labels of an annotation, a bit set. -/
abbrev Labels := BitVec 16

def Labels.none : Labels := 0

structure Position where
  line : ℕ
  column : ℕ
deriving DecidableEq, Repr

structure Range where
  start : Position
  stop : Position
deriving DecidableEq, Repr

/-- A range on a single line, the columns being `start` and `stop`. -/
def newRange (start stop : ℕ) : Range := ⟨⟨0, start⟩, ⟨0, stop⟩⟩

/-- The information attached to a leaf. -/
structure Annotation where
  labels : Labels
  range : Range
deriving DecidableEq, Repr

/-- The annotation a Go literal leaves unset. -/
def Annotation.zero : Annotation := ⟨Labels.none, newRange 0 0⟩

/-- A leaf representing a search pattern fragment. -/
structure Pattern where
  value : GoString
  negated : Bool
  ann : Annotation
deriving DecidableEq, Repr

/-- A leaf representing a parameter of the form `repo:foo`. -/
structure Parameter where
  field : GoString
  value : GoString
  negated : Bool
  ann : Annotation
deriving DecidableEq, Repr

/-- How operands are combined. -/
inductive OperatorKind
  | or
  | and
  | concat
deriving DecidableEq, Repr

/-- **A node of a query.** -/
inductive Node where
  | pattern (p : Pattern)
  | parameter (p : Parameter)
  | operator (kind : OperatorKind) (operands : List Node)
deriving Repr

mutual
/-- Equality of nodes is decidable. -/
def Node.decEq : (a b : Node) → Decidable (a = b)
  | .pattern p, .pattern q => decidable_of_iff (p = q) (by simp)
  | .parameter p, .parameter q => decidable_of_iff (p = q) (by simp)
  | .operator k ns, .operator l ms =>
    match Node.decEqList ns ms with
    | isTrue h => decidable_of_iff (k = l) (by simp [h])
    | isFalse h => isFalse (by simp [h])
  | .pattern _, .parameter _ => isFalse (by simp)
  | .pattern _, .operator _ _ => isFalse (by simp)
  | .parameter _, .pattern _ => isFalse (by simp)
  | .parameter _, .operator _ _ => isFalse (by simp)
  | .operator _ _, .pattern _ => isFalse (by simp)
  | .operator _ _, .parameter _ => isFalse (by simp)
def Node.decEqList : (as bs : List Node) → Decidable (as = bs)
  | [], [] => isTrue rfl
  | a :: as, b :: bs =>
    match Node.decEq a b, Node.decEqList as bs with
    | isTrue h, isTrue h' => isTrue (by rw [h, h'])
    | isFalse h, _ => isFalse (by simp [h])
    | _, isFalse h => isFalse (by simp [h])
  | [], _ :: _ => isFalse (by simp)
  | _ :: _, [] => isFalse (by simp)
end

instance : DecidableEq Node := Node.decEq

mutual
/-- The number of nodes of a tree, operators included. -/
def Node.size : Node → ℕ
  | .pattern _ => 1
  | .parameter _ => 1
  | .operator _ ns => 1 + Node.sizeList ns
/-- The number of nodes of a list of trees. -/
def Node.sizeList : List Node → ℕ
  | [] => 0
  | n :: ns => n.size + Node.sizeList ns
end

@[simp] theorem Node.sizeList_append (as bs : List Node) :
    Node.sizeList (as ++ bs) = Node.sizeList as + Node.sizeList bs := by
  induction as with
  | nil => simp [Node.sizeList]
  | cons a as ih => simp only [List.cons_append, Node.sizeList, ih]; omega

theorem Node.size_pos (n : Node) : 0 < n.size := by
  cases n <;> simp [Node.size]

/-- **Induction over query trees**: a property of nodes and one of lists
of nodes, proved together. -/
theorem Node.induction {P : Node → Prop} {Q : List Node → Prop}
    (pattern : ∀ p, P (.pattern p)) (parameter : ∀ p, P (.parameter p))
    (operator : ∀ k ns, Q ns → P (.operator k ns))
    (nil : Q []) (cons : ∀ n ns, P n → Q ns → Q (n :: ns)) :
    (∀ n, P n) ∧ ∀ ns, Q ns := by
  have hP : ∀ n, P n := fun n =>
    @Node.rec P Q pattern parameter operator nil cons n
  refine ⟨hP, fun ns => ?_⟩
  induction ns with
  | nil => exact nil
  | cons n ns ih => exact cons n ns (hP n) ih

mutual
/-- **Every operator of the tree has an operand.** -/
def Node.HasOperands : Node → Prop
  | .pattern _ => True
  | .parameter _ => True
  | .operator _ ns => ns ≠ [] ∧ Node.HasOperandsList ns
/-- Every operator of a list of trees has an operand. -/
def Node.HasOperandsList : List Node → Prop
  | [] => True
  | n :: ns => n.HasOperands ∧ Node.HasOperandsList ns
end

theorem Node.hasOperandsList_iff (ns : List Node) :
    Node.HasOperandsList ns ↔ ∀ n ∈ ns, n.HasOperands := by
  induction ns with
  | nil => simp [Node.HasOperandsList]
  | cons n ns ih => simp [Node.HasOperandsList, ih]

/-! ## Looking for a kind of node -/

mutual
/-- Whether the node or one below it satisfies `fn`. -/
def Node.existsNode (fn : Node → Bool) : Node → Bool
  | .pattern p => fn (.pattern p)
  | .parameter p => fn (.parameter p)
  | .operator k ns => fn (.operator k ns) || existsNodes fn ns
/-- **`Exists`**: whether a node of the list, or one below it, satisfies
`fn`. -/
def existsNodes (fn : Node → Bool) : List Node → Bool
  | [] => false
  | n :: ns => Node.existsNode fn n || existsNodes fn ns
end

theorem existsNodes_eq_any (fn : Node → Bool) (ns : List Node) :
    existsNodes fn ns = ns.any (Node.existsNode fn) := by
  induction ns with
  | nil => rfl
  | cons n ns ih => rw [existsNodes, ih, List.any_cons]

/-- Whether a node is a parameter. -/
def Node.isParameter : Node → Bool
  | .parameter _ => true
  | _ => false

/-- Whether every leaf of the nodes is a search pattern. -/
def isPatternExpression (nodes : List Node) : Bool :=
  !existsNodes Node.isParameter nodes

@[simp] theorem isPatternExpression_append (as bs : List Node) :
    isPatternExpression (as ++ bs)
      = (isPatternExpression as && isPatternExpression bs) := by
  simp [isPatternExpression, existsNodes_eq_any]

@[simp] theorem isPatternExpression_operator (kind : OperatorKind)
    (operands : List Node) :
    isPatternExpression [.operator kind operands] = isPatternExpression operands := by
  simp [isPatternExpression, existsNodes, Node.existsNode, Node.isParameter]

theorem isPatternExpression_cons (n : Node) (ns : List Node) :
    isPatternExpression (n :: ns)
      = (isPatternExpression [n] && isPatternExpression ns) :=
  isPatternExpression_append [n] ns

/-! ## `reduce` and `NewOperator` -/

/-- Whether a node is a leaf whose value is the empty string. -/
def Node.isEmptyLeaf : Node → Bool
  | .pattern p => p.value.isEmpty
  | .parameter p => p.value.isEmpty
  | .operator _ _ => false

/-- The operands of a node that is an operator of the given kind. -/
def Node.operandsOf (kind : OperatorKind) : Node → Option (List Node)
  | .operator k ns => if k = kind then some ns else none
  | _ => none

/-- The end of `reduce`, reached when neither the first right node nor the
left one reduces: reduce the right list on its own, `recur` being that
call. -/
def reduceRightList (left right : List Node)
    (recur : Option (List Node × Bool)) : Option (List Node × Bool) :=
  if right.length ≤ 1 then some (left ++ right, false)
  else match recur with
    | none => none
    | some (reduced, true) => some (left ++ reduced, true)
    | some (_, false) => some (left ++ right, false)

/-- The two leaf cases of `reduce`, the first right node being a leaf with
value `value`. -/
def reduceLeaf (left0 : Node) (left right : List Node) (value : GoString)
    (kind : OperatorKind) (recur : Option (List Node × Bool)) :
    Option (List Node × Bool) :=
  if value.isEmpty then some (left ++ right.tail, true)
  else match left0.operandsOf kind with
    | some operands => some (operands ++ right, true)
    | none => reduceRightList left right recur

/-- **`reduce`**: reduce a list of left and a list of right nodes by one
step if possible, and say whether it was. `none` is the panic of
indexing an empty list, `left[0]` or `right[0]`. -/
def reduce (left right : List Node) (kind : OperatorKind) :
    Option (List Node × Bool) :=
  match left with
  | [] => none
  | left0 :: _ =>
    if left0.isParameter && left0.isEmptyLeaf then some (right, true)
    else match right with
      | [] => none
      | .operator k operands :: rest =>
        if k = kind then some (left ++ operands ++ rest, true)
        else reduceRightList left (.operator k operands :: rest)
          (reduce [.operator k operands] rest kind)
      | .parameter term :: rest =>
        reduceLeaf left0 left (.parameter term :: rest) term.value kind
          (reduce [.parameter term] rest kind)
      | .pattern term :: rest =>
        reduceLeaf left0 left (.pattern term :: rest) term.value kind
          (reduce [.pattern term] rest kind)

/-- **What one call of `reduce` can do** to a list of operands: drop a
leaf with an empty value, or splice the operands of an operator of the
kind being built into its place. -/
inductive ReduceStep (kind : OperatorKind) : List Node → List Node → Prop
  | drop (pre post : List Node) (n : Node) (h : n.isEmptyLeaf = true) :
    ReduceStep kind (pre ++ n :: post) (pre ++ post)
  | splice (pre post operands : List Node) :
    ReduceStep kind (pre ++ .operator kind operands :: post)
      (pre ++ operands ++ post)

variable {kind : OperatorKind}

theorem ReduceStep.cons {as bs : List Node} (h : ReduceStep kind as bs) (n : Node) :
    ReduceStep kind (n :: as) (n :: bs) := by
  cases h with
  | drop pre post m hm => exact ReduceStep.drop (n :: pre) post m hm
  | splice pre post operands => exact ReduceStep.splice (n :: pre) post operands

/-- A step removes a node: the leaf it drops or the operator it splices. -/
theorem ReduceStep.sizeList_lt {as bs : List Node}
    (h : ReduceStep kind as bs) : Node.sizeList bs < Node.sizeList as := by
  cases h with
  | drop pre post n hn =>
    have hpos := n.size_pos
    simp only [Node.sizeList_append, Node.sizeList]
    omega
  | splice pre post operands =>
    simp only [Node.sizeList_append, Node.sizeList, Node.size]
    omega

theorem Node.operandsOf_eq_some {n : Node}
    {operands : List Node} (h : n.operandsOf kind = some operands) :
    n = .operator kind operands := by
  cases n with
  | pattern p => cases h
  | parameter p => cases h
  | operator k ns =>
    simp only [Node.operandsOf] at h
    split at h
    · rename_i hk
      rw [hk, Option.some.inj h]
    · cases h

/-- What `reduce` promises of the operands `nodes`: it does not index an
empty list, reports a change exactly when it made a step, and otherwise
returns the operands as they were. -/
def ReduceResult (kind : OperatorKind) (nodes : List Node)
    (result : Option (List Node × Bool)) : Prop :=
  ∃ out changed, result = some (out, changed)
    ∧ (changed = true → ReduceStep kind nodes out)
    ∧ (changed = false → out = nodes)

theorem ReduceResult.of_step {nodes out : List Node} (h : ReduceStep kind nodes out) :
    ReduceResult kind nodes (some (out, true)) :=
  ⟨out, true, rfl, fun _ => h, fun hf => absurd hf (by simp)⟩

theorem ReduceResult.unchanged (kind : OperatorKind) (nodes : List Node) :
    ReduceResult kind nodes (some (nodes, false)) :=
  ⟨nodes, false, rfl, fun ht => absurd ht (by simp), fun _ => rfl⟩

/-- Reducing the right list on its own reduces the whole. -/
theorem reduceRightList_spec (left0 : Node) {right : List Node} {recur : Option (List Node × Bool)}
    (h : 1 < right.length → ReduceResult kind right recur) :
    ReduceResult kind (left0 :: right) (reduceRightList [left0] right recur) := by
  unfold reduceRightList
  by_cases hlen : right.length ≤ 1
  · rw [if_pos hlen]
    exact ReduceResult.unchanged kind _
  · rw [if_neg hlen]
    obtain ⟨out, changed, rfl, hstep, -⟩ := h (by omega)
    cases changed with
    | true => exact ReduceResult.of_step ((hstep rfl).cons left0)
    | false => exact ReduceResult.unchanged kind _

/-- A first right leaf is dropped when it is empty; otherwise a left
operator of the same kind is spliced, and otherwise the right list is
reduced. -/
theorem reduceLeaf_spec (left0 right0 : Node)
    {rest : List Node} {value : GoString} {recur : Option (List Node × Bool)}
    (hv : right0.isEmptyLeaf = value.isEmpty)
    (h : rest ≠ [] → ReduceResult kind (right0 :: rest) recur) :
    ReduceResult kind (left0 :: right0 :: rest)
      (reduceLeaf left0 [left0] (right0 :: rest) value kind recur) := by
  unfold reduceLeaf
  by_cases he : value.isEmpty = true
  · rw [if_pos he]
    exact ReduceResult.of_step (ReduceStep.drop [left0] rest right0 (hv.trans he))
  · rw [if_neg he]
    cases hops : left0.operandsOf kind with
    | none =>
      refine reduceRightList_spec left0 (fun hlen => h ?_)
      rintro rfl
      simp at hlen
    | some operands =>
      rw [Node.operandsOf_eq_some hops]
      exact ReduceResult.of_step (ReduceStep.splice [] (right0 :: rest) operands)

/-- **One call of `reduce`, at the arguments it is called with**: a single
node on the left and at least one on the right. -/
theorem reduce_spec (kind : OperatorKind) (right : List Node) (hr : right ≠ [])
    (left0 : Node) :
    ReduceResult kind (left0 :: right) (reduce [left0] right kind) := by
  induction right generalizing left0 with
  | nil => exact absurd rfl hr
  | cons right0 rest ih =>
    have hrec : rest ≠ [] → ReduceResult kind (right0 :: rest)
        (reduce [right0] rest kind) := fun h => ih h right0
    rw [reduce.eq_def]
    by_cases hl : (left0.isParameter && left0.isEmptyLeaf) = true
    · simp only [hl, if_true]
      exact ReduceResult.of_step (ReduceStep.drop [] _ left0 (Bool.and_eq_true_iff.mp hl).2)
    · simp only [hl]
      cases right0 with
      | pattern term => exact reduceLeaf_spec left0 _ rfl hrec
      | parameter term => exact reduceLeaf_spec left0 _ rfl hrec
      | operator k operands =>
        by_cases hk : k = kind
        · subst hk
          simp only [if_true]
          exact ReduceResult.of_step (ReduceStep.splice [left0] rest operands)
        · simp only [if_neg hk]
          refine reduceRightList_spec left0 (fun hlen => hrec ?_)
          rintro rfl
          simp at hlen

/-- **`NewOperator`**: build an operator of the given kind, reducing its
operands as needed. The panic of `reduce` is not reachable from here, and
each reduction leaves fewer nodes. -/
def newOperator (nodes : List Node) (kind : OperatorKind) : List Node :=
  match nodes with
  | [] => []
  | [n] => [n]
  | n :: m :: ns =>
    match h : reduce [n] (m :: ns) kind with
    | none => absurd h (by
        obtain ⟨_, _, hs, -⟩ := reduce_spec kind (m :: ns) (by simp) n
        rw [hs]
        simp)
    | some (reduced, true) => newOperator reduced kind
    | some (reduced, false) => [.operator kind reduced]
termination_by Node.sizeList nodes
decreasing_by
  obtain ⟨out, changed, hs, hstep, -⟩ := reduce_spec kind (m :: ns) (by simp) n
  obtain ⟨rfl, rfl⟩ := Prod.mk.inj (Option.some.inj (h.symm.trans hs))
  exact (hstep rfl).sizeList_lt

theorem ReduceStep.ne_nil {as bs : List Node}
    (h : ReduceStep kind as bs) (hlen : 2 ≤ as.length) : bs ≠ [] := by
  intro hbs
  cases h with
  | drop pre post n hn =>
    obtain ⟨rfl, rfl⟩ := List.append_eq_nil_iff.mp hbs
    simp at hlen
  | splice pre post operands =>
    obtain ⟨hpre, rfl⟩ := List.append_eq_nil_iff.mp hbs
    obtain ⟨rfl, -⟩ := List.append_eq_nil_iff.mp hpre
    simp at hlen

/-- **What `NewOperator` does**: some steps, and then it returns what is
left – wrapped in an operator when that is more than one node. -/
theorem newOperator_spec (nodes : List Node) (kind : OperatorKind) :
    ∃ out, Relation.ReflTransGen (ReduceStep kind) nodes out
      ∧ (nodes ≠ [] → out ≠ [])
      ∧ (out.length ≤ 1 ∧ newOperator nodes kind = out
        ∨ 2 ≤ out.length ∧ newOperator nodes kind = [.operator kind out]) := by
  fun_induction newOperator nodes kind with
  | case1 => exact ⟨[], .refl, by simp, Or.inl ⟨by simp, rfl⟩⟩
  | case2 n => exact ⟨[n], .refl, by simp, Or.inl ⟨by simp, rfl⟩⟩
  | case3 n m ns reduced h ih =>
    obtain ⟨out, changed, hs, hstep, -⟩ := reduce_spec kind (m :: ns) (by simp) n
    obtain ⟨rfl, rfl⟩ := Prod.mk.inj (Option.some.inj (h.symm.trans hs))
    obtain ⟨out, hsteps, hne, hout⟩ := ih
    exact ⟨out, .head (hstep rfl) hsteps, fun _ => hne ((hstep rfl).ne_nil (by simp)), hout⟩
  | case4 n m ns reduced h =>
    obtain ⟨out, changed, hs, -, hsame⟩ := reduce_spec kind (m :: ns) (by simp) n
    obtain ⟨rfl, rfl⟩ := Prod.mk.inj (Option.some.inj (h.symm.trans hs))
    rw [hsame rfl]
    exact ⟨_, .refl, by simp, Or.inr ⟨by simp, rfl⟩⟩

theorem newOperator_ne_nil (nodes : List Node) (kind : OperatorKind)
    (h : nodes ≠ []) : newOperator nodes kind ≠ [] := by
  obtain ⟨out, -, hne, ⟨-, hout⟩ | ⟨-, hout⟩⟩ := newOperator_spec nodes kind
  · rw [hout]
    exact hne h
  · rw [hout]
    simp

/-- **`NewOperator` returns one node** when it is given any. -/
theorem newOperator_eq_singleton (nodes : List Node) (kind : OperatorKind)
    (h : nodes ≠ []) : ∃ n, newOperator nodes kind = [n] := by
  obtain ⟨out, -, hne, ⟨hlen, hout⟩ | ⟨-, hout⟩⟩ := newOperator_spec nodes kind
  · obtain ⟨n, ns, rfl⟩ := List.exists_cons_of_ne_nil (hne h)
    have hns : ns = [] := List.eq_nil_of_length_eq_zero (by simpa using hlen)
    exact ⟨n, by rw [hout, hns]⟩
  · exact ⟨_, hout⟩

/-- **The rule for what a constructed operator keeps.** A property of
operand lists that every step keeps, and that wrapping keeps, passes from
the operands to the result. -/
theorem newOperator_invariant {P : List Node → Prop}
    (hstep : ∀ as bs, ReduceStep kind as bs → P as → P bs)
    (hwrap : ∀ as, as ≠ [] → P as → P [.operator kind as])
    {nodes : List Node} (h : P nodes) : P (newOperator nodes kind) := by
  obtain ⟨out, hsteps, -, hout⟩ := newOperator_spec nodes kind
  have hP : P out := by
    clear hout
    induction hsteps with
    | refl => exact h
    | tail _ hlast ih => exact hstep _ _ hlast ih
  obtain ⟨-, hout⟩ | ⟨hlen, hout⟩ := hout
  · rw [hout]
    exact hP
  · rw [hout]
    refine hwrap out ?_ hP
    rintro rfl
    simp at hlen

end Query
