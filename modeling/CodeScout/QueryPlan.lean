import CodeScout.QueryNode

/-!
# Query plans

The search engine does not evaluate a query tree. It evaluates a `Plan`, a
list of `Basic` queries whose results are united, each of them a list of
parameters that scope one pattern expression. `BuildPlan` turns the tree
into a plan by distributing the parameters over the disjunctions of the
tree, and – unlike a full disjunctive normal form – leaves every subtree
that is made of patterns alone as it stands.

`distribute` threads the plan built so far, its *prefixes*, through the
tree from left to right. An empty list of prefixes is the start and reads
as *true*, where an empty plan would read as *false*; the two never meet,
since no node with operands distributes to an empty list. `Distributes`
says what one call owes – its output is not empty, puts no parameter into
a pattern, and holds exactly where its prefixes and its nodes do – and the
steps of `distribute` compose as `Distributes` does
(`Distributes.trans`).
-/

namespace Query

open List

/-- A leaf expression for the search engine: parameters that scope the
evaluation, and at most one search pattern expression. -/
structure Basic where
  parameters : List Parameter
  pattern : Option Node
deriving DecidableEq

/-- **`conjunction`** of two basic queries. -/
def conjunction (left right : Basic) : Basic where
  parameters := left.parameters ++ right.parameters
  pattern :=
    match left.pattern, right.pattern with
    | none, r => r
    | l, none => l
    | some l, some r =>
      some ((newOperator [l, r] .and).head (newOperator_ne_nil [l, r] .and (by simp)))

/-- **`product`**: the conjunction of `toMerge` with each of the basic
queries, or `toMerge` itself where there is none. -/
def product (basics : List Basic) (toMerge : Basic) : List Basic :=
  if basics.isEmpty then [toMerge]
  else basics.map (fun basic => conjunction basic toMerge)

mutual
/-- One round of the loop of `distribute`, the one for a single node. -/
def distributeNode (prefixes : List Basic) : Node → List Basic
  | .operator kind operands =>
    if isPatternExpression operands then
      product prefixes ⟨[], some (.operator kind operands)⟩
    else match kind with
      | .or => distributeOr prefixes operands
      | .and | .concat => distribute prefixes operands
  | .parameter p => product prefixes ⟨[p], none⟩
  | .pattern p => product prefixes ⟨[], some (.pattern p)⟩
/-- The loop over the operands of an or-expression, collecting `result`.
Distributing the single operand `o` over no prefix is a round of
`distributeNode`. -/
def distributeOr (prefixes : List Basic) : List Node → List Basic
  | [] => []
  | o :: os =>
    (distributeNode [] o).flatMap (product prefixes) ++ distributeOr prefixes os
/-- **`distribute`**: distribute the parameters of `nodes` over the
prefixes. -/
def distribute (prefixes : List Basic) : List Node → List Basic
  | [] => prefixes
  | n :: ns => distribute (distributeNode prefixes n) ns
end

/-- **`BuildPlan`**: the plan of a query. -/
def buildPlan (query : List Node) : List Basic := distribute [] query

/-! ## What a query means -/

/-- **A truth assignment to the leaves** of a query. Leaves are compared
by value, so equal leaves are assigned equal truth values; a pattern with
an empty value matches everything. -/
structure Assignment where
  parameter : Parameter → Prop
  pattern : Pattern → Prop
  pattern_empty : ∀ p, p.value = [] → pattern p

mutual
/-- **The truth of a node** under an assignment. -/
def Node.Holds (v : Assignment) : Node → Prop
  | .pattern p => v.pattern p
  | .parameter p => v.parameter p
  | .operator .or ns => Node.SomeHolds v ns
  | .operator .and ns => Node.AllHold v ns
  | .operator .concat ns => Node.AllHold v ns
/-- Every node of the list holds. -/
def Node.AllHold (v : Assignment) : List Node → Prop
  | [] => True
  | n :: ns => n.Holds v ∧ Node.AllHold v ns
/-- Some node of the list holds. -/
def Node.SomeHolds (v : Assignment) : List Node → Prop
  | [] => False
  | n :: ns => n.Holds v ∨ Node.SomeHolds v ns
end

@[simp] theorem Node.allHold_append (v : Assignment) (as bs : List Node) :
    Node.AllHold v (as ++ bs) ↔ Node.AllHold v as ∧ Node.AllHold v bs := by
  induction as with
  | nil => simp [Node.AllHold]
  | cons a as ih => simp only [cons_append, Node.AllHold, ih, and_assoc]

theorem Node.allHold_iff (v : Assignment) (ns : List Node) :
    Node.AllHold v ns ↔ ∀ n ∈ ns, n.Holds v := by
  induction ns with
  | nil => simp [Node.AllHold]
  | cons n ns ih => simp [Node.AllHold, ih]

/-- **The truth of a basic query**: that of all its parameters and, where
there is one, of its pattern. -/
def Basic.Holds (v : Assignment) (b : Basic) : Prop :=
  (∀ p ∈ b.parameters, v.parameter p) ∧ ∀ n, b.pattern = some n → n.Holds v

/-- **No parameter occurs in the pattern** of a basic query. -/
def Basic.PatternOnly (b : Basic) : Prop :=
  ∀ n, b.pattern = some n → isPatternExpression [n] = true

/-- The truth of a list of prefixes: no prefix stands for *true*. -/
def PrefixesHold (v : Assignment) (prefixes : List Basic) : Prop :=
  prefixes = [] ∨ ∃ b ∈ prefixes, b.Holds v

/-! ## Pattern expressions -/

/-- A step of the constructor puts no parameter among patterns. -/
theorem ReduceStep.isPatternExpression {kind : OperatorKind} {as bs : List Node}
    (h : ReduceStep kind as bs) (ha : isPatternExpression as = true) :
    Query.isPatternExpression bs = true := by
  cases h with
  | drop pre post n hn =>
    rw [isPatternExpression_append, isPatternExpression_cons] at ha
    simp_all
  | splice pre post operands =>
    rw [isPatternExpression_append, isPatternExpression_cons] at ha
    simp_all

/-- **A step of the constructor keeps the meaning of a conjunction of
patterns**: the leaf it drops is true, and the operator it splices is a
conjunction too. -/
theorem ReduceStep.allHold {as bs : List Node} (h : ReduceStep .and as bs)
    (ha : Query.isPatternExpression as = true) (v : Assignment) :
    Node.AllHold v bs ↔ Node.AllHold v as := by
  cases h with
  | drop pre post n hn =>
    rw [isPatternExpression_append, isPatternExpression_cons] at ha
    have hn' : n.Holds v := by
      cases n with
      | pattern p => exact v.pattern_empty p (isEmpty_iff.mp hn)
      | parameter p =>
        simp [Query.isPatternExpression, existsNodes, Node.existsNode, Node.isParameter] at ha
      | operator k ns => cases hn
    simp only [Node.allHold_append, Node.AllHold, hn', true_and]
  | splice pre post operands =>
    simp only [Node.allHold_append, Node.AllHold, Node.Holds, and_assoc]

/-- The conjunction `NewOperator` builds from patterns is made of patterns
and means the conjunction of its operands. -/
theorem newOperator_and_spec {nodes : List Node}
    (h : isPatternExpression nodes = true) :
    isPatternExpression (newOperator nodes .and) = true
      ∧ ∀ v, Node.AllHold v (newOperator nodes .and) ↔ Node.AllHold v nodes := by
  refine newOperator_invariant (P := fun out => isPatternExpression out = true
      ∧ ∀ v, Node.AllHold v out ↔ Node.AllHold v nodes)
    ?_ ?_ ⟨h, fun _ => Iff.rfl⟩
  · rintro as bs hstep ⟨has, hv⟩
    exact ⟨hstep.isPatternExpression has, fun v => (hstep.allHold has v).trans (hv v)⟩
  · rintro as - ⟨has, hv⟩
    refine ⟨by rwa [isPatternExpression_operator], fun v => ?_⟩
    simp only [Node.AllHold, Node.Holds, and_true]
    exact hv v

/-! ## The plan means the query -/

theorem conjunction_pattern_spec {l r : Node}
    (hl : isPatternExpression [l] = true) (hr : isPatternExpression [r] = true) :
    let n := (newOperator [l, r] .and).head (newOperator_ne_nil [l, r] .and (by simp))
    isPatternExpression [n] = true
      ∧ ∀ v, n.Holds v ↔ l.Holds v ∧ r.Holds v := by
  intro n
  have hlr : isPatternExpression [l, r] = true := by
    rw [isPatternExpression_cons, hl, hr]
    rfl
  have hone : newOperator [l, r] .and = [n] := by
    obtain ⟨m, hm⟩ := newOperator_eq_singleton [l, r] .and (by simp)
    simp only [n, hm, head_cons]
  obtain ⟨hpat, hmean⟩ := newOperator_and_spec hlr
  rw [hone] at hpat
  refine ⟨hpat, fun v => ?_⟩
  have h := hmean v
  rw [hone] at h
  simpa only [Node.AllHold, and_true] using h

/-- **A conjunction of basic queries is one**: it puts no parameter into
the pattern and holds where both of its sides do. -/
theorem conjunction_spec {left right : Basic} (hl : left.PatternOnly)
    (hr : right.PatternOnly) :
    (conjunction left right).PatternOnly
      ∧ ∀ v, (conjunction left right).Holds v ↔ left.Holds v ∧ right.Holds v := by
  obtain ⟨lps, lpat⟩ := left
  obtain ⟨rps, rpat⟩ := right
  cases lpat with
  | none =>
    refine ⟨hr, fun v => ?_⟩
    simp only [Basic.Holds, conjunction, mem_append, or_imp, forall_and,
      reduceCtorEq, false_imp_iff, implies_true, and_true]
    exact and_assoc
  | some l =>
    cases rpat with
    | none =>
      refine ⟨hl, fun v => ?_⟩
      simp only [Basic.Holds, conjunction, mem_append, or_imp, forall_and,
        reduceCtorEq, false_imp_iff, implies_true, and_true]
      exact and_right_comm
    | some r =>
      obtain ⟨hpat, hmean⟩ := conjunction_pattern_spec (hl l rfl) (hr r rfl)
      refine ⟨fun n hn => ?_, fun v => ?_⟩
      · rw [← Option.some.inj hn]
        exact hpat
      · simp only [Basic.Holds, conjunction, mem_append, or_imp, forall_and,
          Option.some.injEq, forall_eq']
        rw [hmean v]
        exact and_and_and_comm

/-- **What distributing owes**: the output is a non-empty plan, no pattern
of it contains a parameter, and it holds exactly where the prefixes and
`meaning` hold. -/
structure Distributes (prefixes out : List Basic) (meaning : Assignment → Prop) :
    Prop where
  ne_nil : out ≠ []
  patternOnly : ∀ b ∈ out, b.PatternOnly
  holds : ∀ v, (∃ b ∈ out, b.Holds v) ↔ PrefixesHold v prefixes ∧ meaning v

variable {meaning : Assignment → Prop}

theorem Distributes.prefixesHold {prefixes out : List Basic}
    (h : Distributes prefixes out meaning)
    (v : Assignment) :
    PrefixesHold v out ↔ PrefixesHold v prefixes ∧ meaning v := by
  rw [← h.holds v]
  exact or_iff_right h.ne_nil

/-- **Distributing twice** distributes the conjunction. -/
theorem Distributes.trans {ps qs rs : List Basic} {φ ψ : Assignment → Prop}
    (h₁ : Distributes ps qs φ) (h₂ : Distributes qs rs ψ) :
    Distributes ps rs (fun v => φ v ∧ ψ v) where
  ne_nil := h₂.ne_nil
  patternOnly := h₂.patternOnly
  holds v := by rw [h₂.holds v, h₁.prefixesHold v, and_assoc]

/-- **`product` distributes one basic query** over the prefixes. -/
theorem product_distributes {prefixes : List Basic} {b : Basic}
    (hps : ∀ p ∈ prefixes, p.PatternOnly) (hb : b.PatternOnly) :
    Distributes prefixes (product prefixes b) (fun v => b.Holds v) := by
  unfold product
  by_cases hne : prefixes = []
  · subst hne
    refine ⟨by simp, by simpa using hb, fun v => ?_⟩
    simp [PrefixesHold]
  · rw [if_neg (by simpa using hne)]
    refine ⟨by simpa using hne, ?_, fun v => ?_⟩
    · simp only [mem_map]
      rintro _ ⟨p, hp, rfl⟩
      exact (conjunction_spec (hps p hp) hb).1
    · simp only [mem_map, exists_exists_and_eq_and, PrefixesHold, hne, false_or]
      constructor
      · rintro ⟨p, hp, hv⟩
        obtain ⟨hpv, hbv⟩ := ((conjunction_spec (hps p hp) hb).2 v).mp hv
        exact ⟨⟨p, hp, hpv⟩, hbv⟩
      · rintro ⟨⟨p, hp, hpv⟩, hbv⟩
        exact ⟨p, hp, ((conjunction_spec (hps p hp) hb).2 v).mpr ⟨hpv, hbv⟩⟩

theorem flatMap_product_distributes {prefixes basics : List Basic}
    (hps : ∀ p ∈ prefixes, p.PatternOnly)
    (h : Distributes [] basics meaning) :
    Distributes prefixes (basics.flatMap (product prefixes)) meaning := by
  have hone : ∀ b ∈ basics, Distributes prefixes (product prefixes b) (fun v => b.Holds v) :=
    fun b hb => product_distributes hps (h.patternOnly b hb)
  refine ⟨?_, ?_, fun v => ?_⟩
  · obtain ⟨b, hb⟩ := exists_mem_of_ne_nil _ h.ne_nil
    rw [Ne, flatMap_eq_nil_iff]
    exact fun hnil => (hone b hb).ne_nil (hnil b hb)
  · simp only [mem_flatMap]
    rintro c ⟨b, hb, hc⟩
    exact (hone b hb).patternOnly c hc
  · have hmeaning : meaning v ↔ ∃ b ∈ basics, b.Holds v := by
      rw [h.holds v]
      exact (and_iff_right (Or.inl rfl)).symm
    rw [hmeaning]
    simp only [mem_flatMap]
    constructor
    · rintro ⟨c, ⟨b, hb, hc⟩, hcv⟩
      obtain ⟨hpre, hbv⟩ := ((hone b hb).holds v).mp ⟨c, hc, hcv⟩
      exact ⟨hpre, b, hb, hbv⟩
    · rintro ⟨hpre, b, hb, hbv⟩
      obtain ⟨c, hc, hcv⟩ := ((hone b hb).holds v).mpr ⟨hpre, hbv⟩
      exact ⟨c, ⟨b, hb, hc⟩, hcv⟩

theorem Distributes.append {prefixes as bs : List Basic} {φ ψ : Assignment → Prop}
    (ha : Distributes prefixes as φ) (hb : Distributes prefixes bs ψ) :
    Distributes prefixes (as ++ bs) (fun v => φ v ∨ ψ v) where
  ne_nil := by simp [ha.ne_nil]
  patternOnly := by
    simp only [mem_append]
    rintro b (h | h)
    · exact ha.patternOnly b h
    · exact hb.patternOnly b h
  holds v := by
    simp only [mem_append, or_and_right, exists_or]
    rw [ha.holds v, hb.holds v, and_or_left]

/-- The claim of the induction over the tree for a single node. -/
def NodeDistributes (n : Node) : Prop :=
  n.HasOperands → ∀ prefixes, (∀ p ∈ prefixes, p.PatternOnly) →
    Distributes prefixes (distributeNode prefixes n) (fun v => n.Holds v)

/-- The claim of the induction for a non-empty list of nodes, read as a
conjunction by `distribute` and as a disjunction by `distributeOr`. -/
def ListDistributes (ns : List Node) : Prop :=
  Node.HasOperandsList ns → ns ≠ [] →
    ∀ prefixes, (∀ p ∈ prefixes, p.PatternOnly) →
      Distributes prefixes (distribute prefixes ns) (fun v => Node.AllHold v ns)
        ∧ Distributes prefixes (distributeOr prefixes ns) (fun v => Node.SomeHolds v ns)

theorem nodeDistributes_operator (kind : OperatorKind) (operands : List Node)
    (ih : ListDistributes operands) : NodeDistributes (.operator kind operands) := by
  intro hops prefixes hps
  rw [Node.HasOperands] at hops
  by_cases hpat : isPatternExpression operands = true
  · simp only [distributeNode, if_pos hpat]
    have hb : Basic.PatternOnly ⟨[], some (.operator kind operands)⟩ := by
      rintro n hn
      rw [← Option.some.inj hn, isPatternExpression_operator]
      exact hpat
    refine ⟨(product_distributes hps hb).ne_nil, (product_distributes hps hb).patternOnly,
      fun v => ?_⟩
    rw [(product_distributes hps hb).holds v]
    simp [Basic.Holds]
  · obtain ⟨hand, hor⟩ := ih hops.2 hops.1 prefixes hps
    simp only [distributeNode, if_neg hpat]
    cases kind with
    | or => simpa only [Node.Holds] using hor
    | and => simpa only [Node.Holds] using hand
    | concat => simpa only [Node.Holds] using hand

theorem leaf_distributes {prefixes : List Basic} {b : Basic}
    (hps : ∀ p ∈ prefixes, p.PatternOnly) (hb : b.PatternOnly)
    (hmeaning : ∀ v, b.Holds v ↔ meaning v) :
    Distributes prefixes (product prefixes b) meaning where
  ne_nil := (product_distributes hps hb).ne_nil
  patternOnly := (product_distributes hps hb).patternOnly
  holds v := by rw [(product_distributes hps hb).holds v, hmeaning v]

theorem listDistributes_cons (n : Node) (ns : List Node) (hn : NodeDistributes n)
    (hns : ListDistributes ns) : ListDistributes (n :: ns) := by
  intro hops _ prefixes hps
  rw [Node.HasOperandsList] at hops
  have hand := hn hops.1 prefixes hps
  have hor := flatMap_product_distributes hps (hn hops.1 [] (by simp))
  rw [distribute, distributeOr]
  by_cases hnil : ns = []
  · subst hnil
    rw [distribute, distributeOr, append_nil]
    simp only [Node.AllHold, Node.SomeHolds, and_true, or_false]
    exact ⟨hand, hor⟩
  · obtain ⟨hand', -⟩ := hns hops.2 hnil _ hand.patternOnly
    obtain ⟨-, hor'⟩ := hns hops.2 hnil prefixes hps
    exact ⟨hand.trans hand', hor.append hor'⟩

/-- **Every node distributes**, by induction over the tree. -/
theorem distribute_distributes :
    (∀ n, NodeDistributes n) ∧ ∀ ns, ListDistributes ns := by
  refine Node.induction ?_ ?_ nodeDistributes_operator ?_ listDistributes_cons
  · intro p _ prefixes hps
    exact leaf_distributes hps (fun n hn => by rw [← Option.some.inj hn]; rfl)
      (fun v => by simp [Basic.Holds, Node.Holds])
  · intro p _ prefixes hps
    exact leaf_distributes hps (fun n hn => by cases hn)
      (fun v => by simp [Basic.Holds, Node.Holds])
  · exact fun _ h => absurd rfl h

/-- **`BuildPlan` preserves the meaning of the query**: under every
assignment the conjunction of the nodes holds exactly where some basic
query of the plan does, and no pattern of the plan contains a
parameter. -/
theorem buildPlan_preserves_meaning (nodes : List Node) (hne : nodes ≠ [])
    (hops : ∀ n ∈ nodes, n.HasOperands) :
    (∀ v : Assignment, (∀ n ∈ nodes, n.Holds v)
      ↔ ∃ b ∈ buildPlan nodes, (∀ p ∈ b.parameters, v.parameter p)
          ∧ ∀ n, b.pattern = some n → n.Holds v)
    ∧ ∀ b ∈ buildPlan nodes, ∀ n, b.pattern = some n →
        existsNodes Node.isParameter [n] = false := by
  have h := (distribute_distributes.2 nodes ((Node.hasOperandsList_iff nodes).mpr hops)
    hne [] (by simp)).1
  refine ⟨fun v => ?_, fun b hb n hn => ?_⟩
  · rw [← Node.allHold_iff]
    exact ((h.holds v).trans (and_iff_right (Or.inl rfl))).symm
  · have hpat := h.patternOnly b hb n hn
    simpa [isPatternExpression] using hpat

/-- `repo:a (file:b or file:c) (x or y)`: the parameters are multiplied
out and the pattern expression is kept. -/
theorem buildPlan_repo_and_files :
    let param := fun f x => Node.parameter ⟨lit f, lit x, false, .zero⟩
    let pat := fun x => Node.pattern ⟨lit x, false, .zero⟩
    let query := [param "repo" "a",
      .operator .or [param "file" "b", param "file" "c"],
      .operator .or [pat "x", pat "y"]]
    (buildPlan query).length = 2
      ∧ ∀ v : Assignment, (∀ n ∈ query, n.Holds v)
        ↔ ∃ b ∈ buildPlan query, (∀ p ∈ b.parameters, v.parameter p)
            ∧ ∀ n, b.pattern = some n → n.Holds v := by
  intro param pat query
  refine ⟨by decide +kernel, (buildPlan_preserves_meaning query ?_ ?_).1⟩
  · exact cons_ne_nil _ _
  · simp [query, param, pat, Node.HasOperands, Node.HasOperandsList]

end Query
