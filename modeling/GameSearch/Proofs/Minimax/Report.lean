/-
  GameSearch.Proofs.Minimax.Report

  What a report says of a search of the whole tree.  Its lines follow the preorder, while the
  table that it reads was filled by a search that left out whole subtrees.  Both agree: below
  a node that was cut off no node was entered, and in preorder these are the deeper nodes
  directly behind it.

    * `splitOn_unlines`   — the lines of a text whose lines hold no line break
    * `Tidy`, `tidy_number` — numbers are written without line breaks and question marks
    * `Covered.nodeText_eq_notVisited_iff` — nodes without a word stand behind a cut
    * `Reported`          — what the lines of a report are and what they tell
    * `evaluate_reported` — every evaluation from the root has such a report
-/
import GameSearch.Proofs.Minimax.Coverage
import GameSearch.Proofs.Tree.Preorder

namespace GameSearch

-- ============================================================================
-- Lines
-- ============================================================================

namespace Report

theorem toList_unlines_cons (line : String) (lines : List String) :
    (unlines (line :: lines)).toList = line.toList ++ '\n' :: (unlines lines).toList := by
  simp only [unlines, String.toList_join, List.map_cons, List.flatMap_cons, String.toList_append]
  rw [List.append_assoc]
  rfl

/-- Lines without line breaks are found again, and nothing behind the last one. -/
theorem splitOn_unlines {lines : List String} (h : ∀ line ∈ lines, '\n' ∉ line.toList) :
    (unlines lines).toList.splitOn '\n' = lines.map String.toList ++ [[]] := by
  induction lines with
  | nil => rfl
  | cons line lines ih =>
    obtain ⟨hline, hlines⟩ := List.forall_mem_cons.1 h
    rw [toList_unlines_cons, List.splitOn_append_cons_self_of_not_mem hline, ih hlines]
    rfl

-- ============================================================================
-- Characters
-- ============================================================================

theorem mem_intercalate {sep : List Char} {texts : List (List Char)} {c : Char}
    (h : c ∈ sep.intercalate texts) : c ∈ sep ∨ ∃ text ∈ texts, c ∈ text := by
  induction texts with
  | nil => cases h
  | cons text texts ih =>
    by_cases hempty : texts = []
    · subst hempty
      exact .inr ⟨text, List.mem_cons_self, by simpa using h⟩
    · rw [List.intercalate_cons_of_ne_nil hempty, List.mem_append, List.mem_append] at h
      rcases h with (h | h) | h
      · exact .inr ⟨text, List.mem_cons_self, h⟩
      · exact .inl h
      · rcases ih h with hsep | ⟨other, hother, hc⟩
        · exact .inl hsep
        · exact .inr ⟨other, List.mem_cons_of_mem text hother, hc⟩

/-- A text on one line that leaves no question open. -/
def Tidy (text : String) : Prop := '\n' ∉ text.toList ∧ '?' ∉ text.toList

instance (text : String) : Decidable (Tidy text) :=
  inferInstanceAs (Decidable (_ ∧ _))

theorem Tidy.append {s s' : String} (h : Tidy s) (h' : Tidy s') : Tidy (s ++ s') := by
  simp only [Tidy, String.toList_append, List.mem_append, not_or]
  exact ⟨⟨h.1, h'.1⟩, h.2, h'.2⟩

/-- A number is written with digits, a point and a sign, or it is a word. -/
theorem mem_number (x : Score) :
    ∀ c ∈ (number x).toList, c.isDigit = true ∨ c ∈ ['.', '-', 'N', 'a', 'i', 'n', 'f'] := by
  unfold number Decimal.Notation.float
  cases Decimal.Reading.ofFloat x with
  | nan => simp
  | infinite negative => cases negative <;> simp
  | finite negative magnitude =>
    have hrender : ∀ c ∈ Decimal.plain.render (magnitude.shortest Decimal.plain.tie),
        c.isDigit = true ∨ c ∈ ['.', '-', 'N', 'a', 'i', 'n', 'f'] := by
      intro c hc
      rcases Decimal.mem_positional hc with h | h | rfl | rfl
      · exact .inl (Nat.isDigit_of_mem_toDigits (by decide) (by decide) h)
      · cases h
      · exact .inl rfl
      · decide
    dsimp only
    rw [String.toList_ofList]
    cases negative with
    | true => exact List.forall_mem_cons.2 ⟨by decide, hrender⟩
    | false => exact hrender

theorem tidy_number (x : Score) : Tidy (number x) :=
  ⟨fun h => absurd (mem_number x _ h) (by decide), fun h => absurd (mem_number x _ h) (by decide)⟩

theorem tidy_bound (x : Score) : Tidy (bound x) := by
  unfold bound
  split
  · decide
  · split
    · decide
    · exact tidy_number x

/-- What is shown of a node that was entered. -/
def shown (value : Score) (w : Minimax.Window) : String :=
  " = " ++ number value ++ "  (α=" ++ bound w.alpha ++ ", β=" ++ bound w.beta ++ ")"

theorem tidy_shown (value : Score) (w : Minimax.Window) : Tidy (shown value w) := by
  have hvalue : Tidy (" = " ++ number value) := Tidy.append (by decide) (tidy_number value)
  have halpha : Tidy (" = " ++ number value ++ "  (α=" ++ bound w.alpha) :=
    (hvalue.append (by decide)).append (tidy_bound w.alpha)
  exact ((halpha.append (by decide)).append (tidy_bound w.beta)).append (by decide)

/-- It is told from the words for the other nodes by its second character. -/
theorem shown_ne (value : Score) (w : Minimax.Window) :
    shown value w ≠ " pruned" ∧ shown value w ≠ " not visited" := by
  simp [shown, ← String.toList_inj]

end Report

-- ============================================================================
-- What is said of the nodes
-- ============================================================================

namespace Minimax

open Report

namespace Covered

variable {t : Tree} {o : Outcome} {i n : Nat}

/-- Of a node it is said that it was cut off; or it was entered, and the text shows its record; or
    that it was not visited. -/
theorem said (h : Covered t i o) (n : Nat) :
    (n ∈ o.prunedNodes ∧ n ∉ o.visitOrder.toList ∧ nodeText o n = " pruned") ∨
    (n ∉ o.prunedNodes ∧ n ∈ o.visitOrder.toList ∧ ∃ w value best,
      o.record? n = some ⟨w, some value, best⟩ ∧ nodeText o n = shown value w) ∨
    (n ∉ o.prunedNodes ∧ n ∉ o.visitOrder.toList ∧ nodeText o n = " not visited") := by
  unfold nodeText
  by_cases hn : n ∈ o.prunedNodes
  · obtain ⟨⟨p, c⟩, hedge, rfl⟩ := List.mem_map.1 hn
    obtain ⟨-, -, hunseen⟩ := h.edge p c hedge
    refine .inl ⟨hn, fun hv => ?_, if_pos ((h.isPruned_iff c).2 hn)⟩
    rw [← h.isVisited_iff, hunseen] at hv
    cases hv
  · have hflag : ¬ o.isPruned n = true := fun hp => hn ((h.isPruned_iff n).1 hp)
    rw [if_neg hflag, ← h.isVisited_iff, Outcome.isVisited]
    cases hrecord : o.record? n with
    | none => exact .inr (.inr ⟨hn, Bool.false_ne_true, rfl⟩)
    | some r =>
      obtain ⟨value, hvalue, htext⟩ := h.valued n r hrecord
      obtain ⟨w, value', best⟩ := r
      obtain rfl : value' = some value := hvalue
      exact .inr (.inl ⟨hn, rfl, w, value, best, rfl, htext⟩)

theorem nodeText_eq_pruned_iff (h : Covered t i o) :
    nodeText o n = " pruned" ↔ n ∈ o.prunedNodes := by
  rcases h.said n with ⟨hn, -, htext⟩ | ⟨hn, -, w, value, -, -, htext⟩ | ⟨hn, -, htext⟩
  · exact iff_of_true htext hn
  · exact iff_of_false (htext ▸ (shown_ne value w).1) hn
  · exact iff_of_false (by rw [htext]; decide) hn

theorem nodeText_eq_notVisited_iff (h : Covered t i o) :
    nodeText o n = " not visited" ↔ n ∉ o.visitOrder.toList ∧ n ∉ o.prunedNodes := by
  rcases h.said n with ⟨hn, -, htext⟩ | ⟨hn, hv, w, value, -, -, htext⟩ | ⟨hn, hv, htext⟩
  · exact iff_of_false (by rw [htext]; decide) fun hnot => hnot.2 hn
  · exact iff_of_false (htext ▸ (shown_ne value w).2) fun hnot => hnot.1 hv
  · exact iff_of_true htext ⟨hv, hn⟩

theorem mem_visitOrder_iff (h : Covered t i o) :
    n ∈ o.visitOrder.toList ↔ ∃ w value best,
      o.record? n = some ⟨w, some value, best⟩ ∧ nodeText o n = shown value w := by
  rcases h.said n with ⟨-, hv, htext⟩ | ⟨-, hv, hshown⟩ | ⟨-, hv, htext⟩
  · refine iff_of_false hv ?_
    rintro ⟨w, value, -, -, hshown⟩
    exact (shown_ne value w).1 (hshown.symm.trans htext)
  · exact iff_of_true hv hshown
  · refine iff_of_false hv ?_
    rintro ⟨w, value, -, -, hshown⟩
    exact (shown_ne value w).2 (hshown.symm.trans htext)

theorem tidy_nodeText (h : Covered t i o) (n : Nat) : Tidy (nodeText o n) := by
  rcases h.said n with ⟨-, -, htext⟩ | ⟨-, -, w, value, -, -, htext⟩ | ⟨-, -, htext⟩ <;> rw [htext]
  · decide
  · exact tidy_shown value w
  · decide

/-- Neither entered nor cut off are the nodes strictly below a cut. -/
theorem passedOver_iff (h : Covered t i o) (hn : n ∈ t.subtree i) :
    n ∉ o.visitOrder.toList ∧ n ∉ o.prunedNodes ↔
      ∃ a ∈ o.prunedNodes, n ∈ t.subtree a ∧ n ≠ a := by
  rw [h.visitOrder, List.mem_filter, clear_iff]
  constructor
  · rintro ⟨hnot, hpruned⟩
    simp only [hn, true_and, not_forall, not_not] at hnot
    obtain ⟨a, hmem, ha⟩ := hnot
    exact ⟨a, ha, Tree.mem_subtree_iff.2 hmem, fun hna => hpruned (hna ▸ ha)⟩
  · rintro ⟨a, ha, hmem, hne⟩
    rw [Tree.mem_subtree_iff] at hmem
    exact ⟨fun hclear => hclear.2 a hmem ha, fun hpruned =>
      hne (h.incomparable a ha n hpruned hmem).symm⟩

end Covered

-- ============================================================================
-- Reports
-- ============================================================================

/-- What a report of a search of the whole tree tells in which lines. -/
structure Reported (t : Tree) (o : Outcome) (lines : List String) : Prop where
  /-- The text is these lines, each with its line break. -/
  split : (Report.minimax t o).toList.splitOn '\n' = lines.map String.toList ++ [[]]
  length : lines.length = t.size + 2
  /-- Each node has its line, in preorder: two spaces for each step down from the root, its
      identifier and its side, and what is said of it. -/
  node : ∀ (k n : Nat), t.preorder[k]? = some n → lines[k]? = some
    (String.ofList (List.replicate (2 * (t.node n).depth) ' ') ++ t.id n ++
      " [" ++ (t.kind n).label ++ "]" ++ nodeText o n)
  last : lines.drop t.size = [
    "value: " ++ number o.value,
    "principal variation: " ++ " -> ".intercalate (o.principalVariation.map t.id)]
  pruned : ∀ n, nodeText o n = " pruned" ↔ ∃ p, (p, n) ∈ o.prunedEdges.toList
  entered : ∀ n, n ∈ o.visitOrder.toList ↔ ∃ w value best,
    o.record? n = some ⟨w, some value, best⟩ ∧
    nodeText o n = " = " ++ number value ++
      "  (α=" ++ bound w.alpha ++ ", β=" ++ bound w.beta ++ ")"
  notVisited : ∀ n, nodeText o n = " not visited" ↔
    n ∉ o.visitOrder.toList ∧ ∀ p, (p, n) ∉ o.prunedEdges.toList
  /-- These are, in preorder, the deeper nodes directly behind one that was cut off. -/
  behind : ∀ n < t.size, nodeText o n = " not visited" ↔
    ∃ left a rest, t.preorder = left ++ a :: rest ∧ nodeText o a = " pruned" ∧
      n ∈ rest.takeWhile fun m => (t.node a).depth < (t.node m).depth
  /-- No value is left open. -/
  certain : ∀ n, '?' ∉ (nodeText o n).toList
  /-- The value in the second last line is the one recorded of the root. -/
  root : ∃ w best, o.record? t.root = some ⟨w, some o.value, best⟩

variable {t : Tree} {o : Outcome}

/-- The lines of a report hold no line break if the identifiers hold none. -/
theorem forall_mem_minimaxLines (h : Covered t t.root o)
    (hids : ∀ n < t.size, '\n' ∉ (t.id n).toList) :
    ∀ line ∈ minimaxLines t o, '\n' ∉ line.toList := by
  -- outside the tree identifiers are empty
  have hid : ∀ n, '\n' ∉ (t.id n).toList := by
    intro n
    by_cases hn : n < t.size
    · exact hids n hn
    · rw [Tree.id, Tree.node, nodeAt_of_size_le (Nat.not_lt.1 hn)]
      decide
  rw [minimaxLines, List.forall_mem_append]
  constructor
  · intro line hline
    obtain ⟨n, -, rfl⟩ := List.mem_map.1 hline
    have hindent : '\n' ∉ (indent (t.node n).depth).toList := by
      simp [indent]
    have hlabel : '\n' ∉ (t.node n).kind.label.toList := by
      cases (t.node n).kind <;> decide
    simp only [minimaxLine, String.toList_append, List.mem_append, not_or]
    exact ⟨⟨⟨⟨⟨hindent, hid n⟩, by decide⟩, hlabel⟩, by decide⟩, (h.tidy_nodeText n).1⟩
  · have hnames : '\n' ∉ (" -> ".intercalate (o.principalVariation.map t.id)).toList := by
      rw [String.toList_intercalate]
      intro hmem
      rcases mem_intercalate hmem with harrow | ⟨name, hname, hbreak⟩
      · revert harrow
        decide
      · rw [List.map_map] at hname
        obtain ⟨n, -, rfl⟩ := List.mem_map.1 hname
        exact hid n hbreak
    simp only [List.forall_mem_cons, String.toList_append, List.mem_append, not_or]
    exact ⟨⟨by decide, (tidy_number o.value).1⟩, ⟨by decide, hnames⟩, List.forall_mem_nil _⟩

theorem reported_of_covered (h : Covered t t.root o)
    (hroot : ∃ w best, o.record? t.root = some ⟨w, some o.value, best⟩)
    (hids : ∀ n < t.size, '\n' ∉ (t.id n).toList) : Reported t o (minimaxLines t o) := by
  have hedge : ∀ n, n ∈ o.prunedNodes ↔ ∃ p, (p, n) ∈ o.prunedEdges.toList := fun n => by
    simp [Outcome.prunedNodes]
  constructor
  case split => exact splitOn_unlines (forall_mem_minimaxLines h hids)
  case length => simp [minimaxLines, Tree.length_preorder]
  case node =>
    intro k n hn
    have hk : k < (t.preorder.map (minimaxLine t o)).length := by
      rw [List.length_map]
      exact (List.getElem?_eq_some_iff.1 hn).1
    rw [minimaxLines, List.getElem?_append_left hk, List.getElem?_map, hn]
    rfl
  case last =>
    exact List.drop_left' (by rw [List.length_map, Tree.length_preorder])
  case pruned =>
    intro n
    rw [h.nodeText_eq_pruned_iff, hedge]
  case entered => exact fun n => h.mem_visitOrder_iff
  case notVisited =>
    intro n
    rw [h.nodeText_eq_notVisited_iff, hedge, not_exists]
  case behind =>
    intro n hn
    rw [h.nodeText_eq_notVisited_iff, h.passedOver_iff (Tree.mem_preorder_iff.2 hn)]
    constructor
    · rintro ⟨a, ha, hmem, hne⟩
      have hsize : a < t.size :=
        Nat.lt_of_le_of_lt (Tree.le_of_mem_ancestors (Tree.mem_subtree_iff.1 hmem)) hn
      obtain ⟨left, rest, hsplit⟩ := List.append_of_mem (Tree.mem_preorder_iff.2 hsize)
      rw [Tree.subtree_eq_takeWhile hsplit] at hmem
      exact ⟨left, a, rest, hsplit, h.nodeText_eq_pruned_iff.2 ha,
        (List.mem_cons.1 hmem).resolve_left hne⟩
    · rintro ⟨left, a, rest, hsplit, ha, hmem⟩
      refine ⟨a, h.nodeText_eq_pruned_iff.1 ha, ?_, ?_⟩
      · rw [Tree.subtree_eq_takeWhile hsplit]
        exact List.mem_cons_of_mem a hmem
      · have hdeeper := List.mem_takeWhile_imp hmem
        rintro rfl
        exact Nat.lt_irrefl _ (of_decide_eq_true hdeeper)
  case certain => exact fun n => (h.tidy_nodeText n).2
  case root => exact hroot

variable {σ : Type} [Sink σ]

/-- Of every evaluation of the whole tree that succeeds, by recursion or with a stack, with or
    without cutoffs and with any window, the report accounts for every node, if no identifier holds
    a line break. -/
theorem evaluate_reported (e : Engine) (w : Window) (ch : Channel σ) (o : Outcome)
    (h : (e.evaluate e.tree.root w ch).1 = .ok o ∨ (e.evaluateIterative e.tree.root w ch).1 = .ok o)
    (hids : ∀ n < e.tree.size, '\n' ∉ (e.tree.id n).toList) :
    ∃ lines, Reported e.tree o lines := by
  rw [evaluateIterative_eq_evaluate, or_self] at h
  obtain ⟨-, hi, v, rfl⟩ := exists_visit_of_evaluate h
  refine ⟨_, reported_of_covered ((covered_visitTable hi v ch).finish _) ?_ hids⟩
  have hrecord := record?_of_mem_all hi ch (Visit.self_mem_all (explore e e.tree.root v))
  rw [place_explore] at hrecord
  exact ⟨_, _, hrecord⟩

/-- The small tree with a window that holds a single score. -/
theorem evaluate_reported_small :
    ∃ o, ((Engine.evaluate ⟨Tree.small, true⟩ 0 ⟨5.0, 5.0⟩
        (⟨NullSink.mk, Journal.silent⟩ : Channel NullSink)).1 = .ok o ∨
      (Engine.evaluateIterative ⟨Tree.small, true⟩ 0 ⟨5.0, 5.0⟩
        (⟨NullSink.mk, Journal.silent⟩ : Channel NullSink)).1 = .ok o) ∧
      (∀ n < Tree.small.size, '\n' ∉ (Tree.small.id n).toList) ∧
      ∃ lines, Reported Tree.small o lines := by
  have hvalued : Tree.small.LeavesValued := by decide
  have hordered : (⟨5.0, 5.0⟩ : Window).isOrdered = true := by decide
  have hids : ∀ n < Tree.small.size, '\n' ∉ (Tree.small.id n).toList := by decide
  have hprepare := prepare_of_pruning (e := ⟨Tree.small, true⟩) hvalued rfl hordered
  have hok := evaluate_eq_play hvalued (by decide : 0 < Tree.small.size) hprepare
    (⟨NullSink.mk, Journal.silent⟩ : Channel NullSink)
  exact ⟨_, .inl hok, hids, evaluate_reported ⟨Tree.small, true⟩ ⟨5.0, 5.0⟩ _ _ (.inl hok) hids⟩

-- the second child of the root is cut off, and nothing is known of the nodes below it
example : (Engine.evaluate ⟨Tree.small, true⟩ 0 ⟨5.0, 5.0⟩
      (⟨NullSink.mk, Journal.silent⟩ : Channel NullSink)).1.toOption.map
        (Report.minimax Tree.small) = some (unlines [
    "R [MAX] = 4  (α=5, β=5)",
    "  A [MIN] = 4  (α=5, β=5)",
    "    A1 [MAX] = 4  (α=5, β=5)",
    "    A2 [MAX] pruned",
    "  B [MIN] pruned",
    "    B1 [MAX] not visited",
    "    B2 [MAX] not visited",
    "value: 4",
    "principal variation: R -> A -> A1"]) := by
  decide +kernel

end Minimax

end GameSearch
