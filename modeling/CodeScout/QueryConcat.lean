import CodeScout.QueryNode

/-!
# Substituting concatenated patterns

The parser collects the patterns between two operators under a `Concat`
operator, whose operands may also be negated patterns and parenthesised
expressions. `substituteConcat` replaces every `Concat` operator of the
tree: it hands each maximal run of contiguous patterns to a callback and
puts the callback's answer, and whatever stands between the runs, in the
operator's place.

With the callback that returns the run it is given, the pass should not
change the sequence of leaves. It keeps every operand but one: the first
operand of a `Concat` is looked at only to see whether it starts a run of
patterns, and nothing is done with it when it is not a pattern, where the
same loop substitutes an operator in any later position.
`substituteConcat_keeps_leaves_iff` says that this is the only loss.
-/

namespace Query

open List

/-- Whether a node is a pattern that is not negated. -/
def Node.isPattern : Node → Bool
  | .pattern p => !p.negated
  | _ => false

/-- The type assertion `node.(Pattern)`, with the pattern as a run of at
most one. -/
def Node.asPattern : Node → List Pattern
  | .pattern p => [p]
  | _ => []

/-- The callback's answer for a pending run, nothing where there is no
pending run. -/
def flushRun (callback : List Pattern → List Node) (ps : List Pattern) : List Node :=
  if 0 < ps.length then callback ps else []

open Node

mutual
/-- What the pass puts in the place of one node. `none` is the panic of
`v.Operands[0]` on an operator without operands. -/
def substituteNode (callback : List Pattern → List Node) :
    Node → Option (List Node)
  | .parameter p => some [.parameter p]
  | .pattern p => some [.pattern p]
  | .operator .concat [] => none
  | .operator .concat (previous :: rest) =>
    mergeRuns callback previous previous.asPattern rest
  | .operator .or operands => do
    return newOperator (← substituteNodes callback operands) .or
  | .operator .and operands => do
    return newOperator (← substituteNodes callback operands) .and
/-- The loop over the operands of a `Concat` after the first, with the
node `previous` and the pending run `ps` of the source. A pattern after a
non-pattern is no part of a run, since `previous` moves along patterns
only. -/
def mergeRuns (callback : List Pattern → List Node) (previous : Node)
    (ps : List Pattern) : List Node → Option (List Node)
  | [] => some (flushRun callback ps)
  | node :: rest =>
    if node.isPattern && previous.isPattern then
      mergeRuns callback node (ps ++ node.asPattern) rest
    else do
      return flushRun callback ps ++ (← substituteNode callback node)
        ++ (← mergeRuns callback previous [] rest)
/-- The pass over a list of nodes. -/
def substituteNodes (callback : List Pattern → List Node) :
    List Node → Option (List Node)
  | [] => some []
  | n :: ns => do
    return (← substituteNode callback n) ++ (← substituteNodes callback ns)
end

/-- **`substituteConcat`**: the pass for a callback. -/
def substituteConcat (callback : List Pattern → List Node) (nodes : List Node) :
    Option (List Node) :=
  substituteNodes callback nodes

/-- The callback that returns the patterns it is given. -/
def keepPatterns (ps : List Pattern) : List Node := ps.map Node.pattern

/-! ## Leaves -/

mutual
/-- **The leaves of a node**, in order. -/
def Node.leaves : Node → List Node
  | .pattern p => [.pattern p]
  | .parameter p => [.parameter p]
  | .operator _ ns => Node.leavesList ns
/-- The leaves of a list of nodes, in order. -/
def Node.leavesList : List Node → List Node
  | [] => []
  | n :: ns => n.leaves ++ Node.leavesList ns
end

@[simp] theorem Node.leavesList_append (as bs : List Node) :
    Node.leavesList (as ++ bs) = Node.leavesList as ++ Node.leavesList bs := by
  induction as with
  | nil => rfl
  | cons a as ih => simp only [cons_append, leavesList, ih, append_assoc]

@[simp] theorem Node.leavesList_keepPatterns (ps : List Pattern) :
    Node.leavesList (keepPatterns ps) = keepPatterns ps := by
  induction ps with
  | nil => rfl
  | cons p ps ih =>
    show (pattern p).leaves ++ leavesList (keepPatterns ps) = _
    rw [ih]
    rfl

@[simp] theorem flushRun_keepPatterns (ps : List Pattern) :
    flushRun keepPatterns ps = keepPatterns ps := by
  cases ps <;> rfl

/-- **A tree whose operators have operands has a leaf.** -/
theorem Node.leaves_ne_nil : (∀ n : Node, n.HasOperands → n.leaves ≠ [])
    ∧ ∀ ns : List Node, Node.HasOperandsList ns → ns ≠ [] → Node.leavesList ns ≠ [] := by
  refine induction ?_ ?_ ?_ ?_ ?_
  · exact fun p _ => cons_ne_nil _ _
  · exact fun p _ => cons_ne_nil _ _
  · intro k ns ih h
    rw [Node.HasOperands] at h
    exact ih h.2 h.1
  · exact fun _ h => absurd rfl h
  · intro n ns hn _ h _
    rw [leavesList]
    exact append_ne_nil_of_left_ne_nil (hn h.1) _

/-- **A step of the constructor loses no leaf with a value.** -/
theorem ReduceStep.leavesList_eq {kind : OperatorKind} {as bs : List Node}
    (h : ReduceStep kind as bs)
    (hval : ∀ l ∈ Node.leavesList as, l.isEmptyLeaf = false) :
    Node.leavesList bs = Node.leavesList as := by
  cases h with
  | drop pre post n hn =>
    have hmem : n ∈ leavesList (pre ++ n :: post) := by
      cases n with
      | operator k ns => cases hn
      | pattern p => simp [leavesList, leaves]
      | parameter p => simp [leavesList, leaves]
    exact absurd hn (by simp [hval n hmem])
  | splice pre post operands =>
    simp only [leavesList_append, leavesList, leaves,
      append_assoc]

/-- **Neither does the constructor.** -/
theorem newOperator_leavesList (nodes : List Node) (kind : OperatorKind)
    (hval : ∀ l ∈ Node.leavesList nodes, l.isEmptyLeaf = false) :
    Node.leavesList (newOperator nodes kind) = Node.leavesList nodes := by
  refine newOperator_invariant
    (P := fun out => leavesList out = leavesList nodes) ?_ ?_ rfl
  · intro as bs hstep has
    exact (hstep.leavesList_eq (by rwa [has])).trans has
  · intro as _ has
    rw [← has]
    simp [leavesList, leaves]

/-! ## Which trees keep their leaves -/

/-- Whether the first operand is there and is a pattern, negated or not. -/
def startsWithPattern : List Node → Bool
  | .pattern _ :: _ => true
  | _ => false

mutual
/-- **Every `Concat` operator of the tree starts with a pattern.** -/
def Node.ConcatsStartWithPattern : Node → Prop
  | .pattern _ => True
  | .parameter _ => True
  | .operator kind ns =>
    (kind = .concat → startsWithPattern ns = true) ∧ Node.ConcatsStartWithPatternList ns
/-- Every `Concat` operator of a list of trees starts with a pattern. -/
def Node.ConcatsStartWithPatternList : List Node → Prop
  | [] => True
  | n :: ns => n.ConcatsStartWithPattern ∧ Node.ConcatsStartWithPatternList ns
end

theorem Node.concatsStartWithPatternList_iff (ns : List Node) :
    Node.ConcatsStartWithPatternList ns ↔ ∀ n ∈ ns, n.ConcatsStartWithPattern := by
  induction ns with
  | nil => simp [Node.ConcatsStartWithPatternList]
  | cons n ns ih => simp [Node.ConcatsStartWithPatternList, ih]

/-- **What a pass does to a sequence of leaves**: it keeps a subsequence,
and the whole of it exactly where `good` holds. -/
structure Keeps (good : Prop) (before after : List Node) : Prop where
  sublist : after.Sublist before
  eq_iff : after = before ↔ good

theorem Keeps.refl (ls : List Node) : Keeps True ls ls :=
  ⟨List.Sublist.refl ls, iff_of_true rfl trivial⟩

theorem Keeps.append {g g' : Prop} {as as' bs bs' : List Node}
    (h : Keeps g as bs) (h' : Keeps g' as' bs') :
    Keeps (g ∧ g') (as ++ as') (bs ++ bs') where
  sublist := h.sublist.append h'.sublist
  eq_iff := by
    rw [← h.eq_iff, ← h'.eq_iff]
    constructor
    · intro heq
      have hlen : bs.length + bs'.length = as.length + as'.length := by
        rw [← length_append, heq, length_append]
      have h₁ := h.sublist.length_le
      have h₂ := h'.sublist.length_le
      exact ⟨h.sublist.eq_of_length (by omega), h'.sublist.eq_of_length (by omega)⟩
    · rintro ⟨rfl, rfl⟩
      rfl

/-- A sequence that is lost had better be empty. -/
theorem Keeps.lost {g : Prop} {ls as bs : List Node} (hls : ls ≠ [])
    (h : Keeps g as bs) : Keeps False (ls ++ as) bs where
  sublist := h.sublist.trans (sublist_append_right ls as)
  eq_iff := by
    refine iff_of_false (fun heq => ?_) not_false
    have hlen := h.sublist.length_le
    rw [heq, length_append] at hlen
    exact hls (eq_nil_of_length_eq_zero (by omega))

theorem Keeps.congr {g g' : Prop} {as bs : List Node} (h : Keeps g as bs)
    (hg : g ↔ g') : Keeps g' as bs :=
  ⟨h.sublist, h.eq_iff.trans hg⟩

/-! ## What the pass keeps -/

/-- What the pass owes for a node: it does not panic, and it keeps the
leaves exactly where the tree asks nothing else of it. -/
def NodeKeeps (n : Node) : Prop :=
  n.HasOperands → (∀ l ∈ n.leaves, l.isEmptyLeaf = false) →
    ∃ out, substituteNode keepPatterns n = some out
      ∧ Keeps n.ConcatsStartWithPattern n.leaves (Node.leavesList out)

/-- What the loop owes for the operands after the first: the leaves of the
pending run, and then those of the operands. -/
def RunsKeep (ns : List Node) : Prop :=
  Node.HasOperandsList ns → (∀ l ∈ Node.leavesList ns, l.isEmptyLeaf = false) →
    ∀ previous ps, ∃ out, mergeRuns keepPatterns previous ps ns = some out
      ∧ Keeps (Node.ConcatsStartWithPatternList ns)
          (keepPatterns ps ++ Node.leavesList ns) (Node.leavesList out)

/-- What the pass owes for a list of nodes. -/
def ListKeeps (ns : List Node) : Prop :=
  Node.HasOperandsList ns → (∀ l ∈ Node.leavesList ns, l.isEmptyLeaf = false) →
    ∃ out, substituteNodes keepPatterns ns = some out
      ∧ Keeps (Node.ConcatsStartWithPatternList ns) (Node.leavesList ns)
          (Node.leavesList out)

theorem runsKeep_cons (n : Node) (ns : List Node) (hn : NodeKeeps n)
    (hns : RunsKeep ns) : RunsKeep (n :: ns) := by
  intro hops hval previous ps
  rw [Node.HasOperandsList] at hops
  rw [leavesList] at hval
  have hvaln : ∀ l ∈ n.leaves, l.isEmptyLeaf = false :=
    fun l hl => hval l (mem_append_left _ hl)
  have hvalns : ∀ l ∈ leavesList ns, l.isEmptyLeaf = false :=
    fun l hl => hval l (mem_append_right _ hl)
  by_cases hrun : (n.isPattern && previous.isPattern) = true
  · -- the node joins the pending run
    obtain ⟨p, rfl⟩ : ∃ p, n = .pattern p := by
      cases n with
      | pattern p => exact ⟨p, rfl⟩
      | parameter p => cases hrun
      | operator k ns => cases hrun
    obtain ⟨out, hout, hkeeps⟩ := hns hops.2 hvalns (.pattern p) (ps ++ [p])
    refine ⟨out, ?_, ?_⟩
    · rw [mergeRuns, if_pos hrun]
      exact hout
    · have hsplit : keepPatterns (ps ++ [p]) ++ leavesList ns
          = keepPatterns ps ++ leavesList (.pattern p :: ns) := by
        simp [keepPatterns, leavesList, leaves]
      rw [← hsplit]
      refine hkeeps.congr ?_
      rw [Node.ConcatsStartWithPatternList, Node.ConcatsStartWithPattern, true_and]
  · -- the pending run is flushed and the node substituted on its own
    obtain ⟨out, hout, hkeeps⟩ := hn hops.1 hvaln
    obtain ⟨outs, houts, hkeepss⟩ := hns hops.2 hvalns previous []
    refine ⟨keepPatterns ps ++ out ++ outs, ?_, ?_⟩
    · rw [mergeRuns, if_neg hrun, hout, houts, flushRun_keepPatterns]
      rfl
    · have h := ((Keeps.refl (keepPatterns ps)).append hkeeps).append hkeepss
      rw [leavesList_append, leavesList_append, leavesList_keepPatterns,
        leavesList, ← append_assoc]
      refine h.congr ?_
      rw [true_and, Node.ConcatsStartWithPatternList]

/-- A `Concat` operator: the loop runs over the operands after the first,
and the first one is kept only as the start of a run. -/
theorem nodeKeeps_concat (ns : List Node) (h : RunsKeep ns.tail) :
    NodeKeeps (.operator .concat ns) := by
  intro hops hval
  rw [Node.HasOperands] at hops
  obtain ⟨previous, rest, rfl⟩ := exists_cons_of_ne_nil hops.1
  rw [Node.HasOperandsList] at hops
  rw [leaves, leavesList] at hval
  obtain ⟨out, hout, hkeeps⟩ := h hops.2.2
    (fun l hl => hval l (mem_append_right _ hl)) previous previous.asPattern
  refine ⟨out, by rw [substituteNode]; exact hout, ?_⟩
  rw [leaves, leavesList]
  cases previous with
  | pattern p =>
    refine hkeeps.congr ?_
    simp [Node.ConcatsStartWithPattern, Node.ConcatsStartWithPatternList,
      startsWithPattern]
  | parameter p =>
    refine (Keeps.lost (cons_ne_nil _ _) hkeeps).congr ?_
    simp [Node.ConcatsStartWithPattern, startsWithPattern]
  | operator k operands =>
    refine (Keeps.lost (leaves_ne_nil.1 _ hops.2.1) hkeeps).congr ?_
    simp [Node.ConcatsStartWithPattern, startsWithPattern]

/-- An `Or` or `And` operator: its operands are substituted and the
operator is built again. -/
theorem newOperator_keeps (kind : OperatorKind) (hkind : kind ≠ .concat)
    (ns : List Node) (h : ListKeeps ns)
    (hops : (Node.operator kind ns).HasOperands)
    (hval : ∀ l ∈ (Node.operator kind ns).leaves, l.isEmptyLeaf = false) :
    ∃ out, substituteNodes keepPatterns ns = some out
      ∧ Keeps (Node.operator kind ns).ConcatsStartWithPattern
          (Node.operator kind ns).leaves (Node.leavesList (newOperator out kind)) := by
  rw [Node.HasOperands] at hops
  rw [leaves] at hval
  obtain ⟨out, hout, hkeeps⟩ := h hops.2 hval
  refine ⟨out, hout, ?_⟩
  rw [newOperator_leavesList out kind (fun l hl => hval l (hkeeps.sublist.subset hl)),
    leaves]
  refine hkeeps.congr ?_
  simp [Node.ConcatsStartWithPattern, hkind]

/-- **What the pass keeps**, by induction over the tree. The list part of
the induction carries the loop for the list and for its tail, which is
where a `Concat` starts it. -/
theorem substitute_keeps :
    (∀ n, NodeKeeps n) ∧ ∀ ns, ListKeeps ns ∧ RunsKeep ns ∧ RunsKeep ns.tail := by
  have hnil : RunsKeep [] := by
    intro _ _ previous ps
    refine ⟨keepPatterns ps, by rw [mergeRuns, flushRun_keepPatterns], ?_⟩
    rw [leavesList_keepPatterns, leavesList, append_nil]
    exact Keeps.refl _
  refine induction ?_ ?_ ?_ ?_ ?_
  · exact fun p _ _ => ⟨_, rfl, Keeps.refl _⟩
  · exact fun p _ _ => ⟨_, rfl, Keeps.refl _⟩
  · rintro kind ns ⟨hlist, -, htail⟩
    cases kind with
    | concat => exact nodeKeeps_concat ns htail
    | or =>
      intro hops hval
      obtain ⟨out, hout, hkeeps⟩ := newOperator_keeps .or (by simp) ns hlist hops hval
      exact ⟨newOperator out .or, by rw [substituteNode, hout]; rfl, hkeeps⟩
    | and =>
      intro hops hval
      obtain ⟨out, hout, hkeeps⟩ := newOperator_keeps .and (by simp) ns hlist hops hval
      exact ⟨newOperator out .and, by rw [substituteNode, hout]; rfl, hkeeps⟩
  · exact ⟨fun _ _ => ⟨[], rfl, Keeps.refl _⟩, hnil, hnil⟩
  · rintro n ns hn ⟨hlist, hruns, -⟩
    refine ⟨?_, runsKeep_cons n ns hn hruns, hruns⟩
    intro hops hval
    rw [Node.HasOperandsList] at hops
    rw [leavesList] at hval
    obtain ⟨out, hout, hkeeps⟩ := hn hops.1
      (fun l hl => hval l (mem_append_left _ hl))
    obtain ⟨outs, houts, hkeepss⟩ := hlist hops.2
      (fun l hl => hval l (mem_append_right _ hl))
    refine ⟨out ++ outs, by rw [substituteNodes, hout, houts]; rfl, ?_⟩
    rw [leavesList_append, leavesList]
    exact hkeeps.append hkeepss

/-- **The pass keeps the leaves exactly where every `Concat` operator
starts with a pattern.** Elsewhere the first operand of such an operator is
dropped with all its leaves. -/
theorem substituteConcat_keeps_leaves_iff (nodes : List Node)
    (hops : ∀ n ∈ nodes, n.HasOperands)
    (hval : ∀ l ∈ Node.leavesList nodes, l.isEmptyLeaf = false) :
    (∃ out, substituteConcat keepPatterns nodes = some out
        ∧ Node.leavesList out = Node.leavesList nodes)
      ↔ ∀ n ∈ nodes, n.ConcatsStartWithPattern := by
  obtain ⟨out, hout, hkeeps⟩ :=
    (substitute_keeps.2 nodes).1 ((hasOperandsList_iff nodes).mpr hops) hval
  rw [← concatsStartWithPatternList_iff, ← hkeeps.eq_iff]
  constructor
  · rintro ⟨out', hout', heq⟩
    rwa [Option.some.inj (hout'.symm.trans hout)] at heq
  · exact fun heq => ⟨out, hout, heq⟩

/-- `a (b or c) d`: an operator after a pattern is kept. -/
theorem substituteConcat_keeps_later_operator :
    let pat := fun x => Node.pattern ⟨lit x, false, .zero⟩
    let query := [Node.operator .concat
      [pat "a", .operator .or [pat "b", pat "c"], pat "d"]]
    ∃ out, substituteConcat keepPatterns query = some out
      ∧ Node.leavesList out = Node.leavesList query := by
  intro pat query
  refine (substituteConcat_keeps_leaves_iff query ?_ ?_).mpr ?_
  · simp [query, pat, Node.HasOperands, Node.HasOperandsList]
  · decide
  · simp [query, pat, Node.ConcatsStartWithPattern, Node.ConcatsStartWithPatternList,
      startsWithPattern]

/-- `(a or b) c`, as the regexp grammar parses it: the pass returns `c`
alone. -/
theorem substituteConcat_drops_first_operator :
    let pat := fun x => Node.pattern ⟨lit x, false, .zero⟩
    let query := [Node.operator .concat [.operator .or [pat "a", pat "b"], pat "c"]]
    (∀ n ∈ query, n.HasOperands)
      ∧ (∀ l ∈ Node.leavesList query, l.isEmptyLeaf = false)
      ∧ substituteConcat keepPatterns query = some [pat "c"]
      ∧ ¬ ∃ out, substituteConcat keepPatterns query = some out
          ∧ Node.leavesList out = Node.leavesList query := by
  intro pat query
  have hout : substituteConcat keepPatterns query = some [pat "c"] := by
    decide +kernel
  refine ⟨?_, by decide, hout, ?_⟩
  · simp [query, pat, Node.HasOperands, Node.HasOperandsList]
  · rintro ⟨out, hout', heq⟩
    rw [← Option.some.inj (hout.symm.trans hout')] at heq
    exact absurd heq (by decide)

end Query
