/-
  GameSearch.Proofs.Tree.Faults

  What can be wrong with a position of a specification, said without the builder.  A
  position may have several faults at once; some of them go before others, and those
  that share the last rank exclude each other, so one of them decides.

    * `HasFault`         — the faults of a position, given the positions before it
    * `FirstFault`       — the fault that decides for a list of positions
    * `check_decisive`   — the check of a waiting position finds the fault that decides
    * `FirstFault.unique` — there is only one such fault
-/
import GameSearch.Tree.Plan
import GameSearch.Proofs.Tree.Positions

namespace GameSearch.Tree

/-- What is wrong with a position that comes after the given ones. -/
inductive HasFault (limits : Limits) (earlier : List Position) (p : Position) : Fault → Prop
  | missingId : p.spec.id = none → HasFault limits earlier p (.missingId p.path)
  | tooDeep {id} : p.spec.id = some id → limits.maxDepth < p.depth →
      HasFault limits earlier p (.tooDeep id p.depth limits.maxDepth)
  | duplicateId {id} : p.spec.id = some id → (∃ q ∈ earlier, q.spec.id = some id) →
      HasFault limits earlier p (.duplicateId id)
  | valueOnInternalNode {id} : p.spec.id = some id → p.spec.children ≠ [] →
      p.spec.value ≠ none → HasFault limits earlier p (.valueOnInternalNode id)
  | leafWithoutValue {id} : p.spec.id = some id → p.spec.children = [] → p.spec.value = none →
      limits.valuelessLeaves = false → HasFault limits earlier p (.leafWithoutValue id)
  | nonFiniteValue {id v} : p.spec.id = some id → p.spec.children = [] → p.spec.value = some v →
      v.isFinite = false → HasFault limits earlier p (.nonFiniteValue id v)

/-- Faults of smaller rank go before those of greater rank. -/
def Fault.rank : Fault → Nat
  | .missingId _ => 0
  | .tooDeep .. => 1
  | .duplicateId _ => 2
  | .valueOnInternalNode _ | .leafWithoutValue _ | .nonFiniteValue .. => 3

/-- The fault of a position that goes before its other faults. -/
def Decisive (limits : Limits) (earlier : List Position) (p : Position) (fault : Fault) : Prop :=
  HasFault limits earlier p fault ∧
    ∀ other, HasFault limits earlier p other → fault.rank ≤ other.rank

/-- Nothing is wrong with any position of a list. -/
def Faultless (limits : Limits) (order : List Position) : Prop :=
  ∀ before p after, order = before ++ p :: after → ∀ fault, ¬ HasFault limits before p fault

/-- The decisive fault of the first position with a fault. -/
def FirstFault (limits : Limits) (order : List Position) (fault : Fault) : Prop :=
  ∃ before p after, order = before ++ p :: after ∧ Faultless limits before ∧
    Decisive limits before p fault

variable {limits : Limits} {order earlier before after : List Position} {p : Position}
  {fault other : Fault}

-- ============================================================================
-- One fault decides
-- ============================================================================

theorem HasFault.eq_of_rank_eq (h : HasFault limits earlier p fault)
    (h' : HasFault limits earlier p other) (hrank : fault.rank = other.rank) : fault = other := by
  cases h <;> cases h' <;> simp_all [Fault.rank]

theorem Decisive.unique (h : Decisive limits earlier p fault)
    (h' : Decisive limits earlier p other) : fault = other :=
  h.1.eq_of_rank_eq h'.1 (Nat.le_antisymm (h.2 other h'.1) (h'.2 fault h.1))

theorem Faultless.nil (limits : Limits) : Faultless limits [] := by
  intro before p after h
  exact absurd h.symm (by simp)

/-- A position without fault may follow. -/
theorem Faultless.concat (h : Faultless limits before)
    (hp : ∀ fault, ¬ HasFault limits before p fault) : Faultless limits (before ++ [p]) := by
  intro earlier q after heq
  rcases List.eq_nil_or_concat after with rfl | ⟨rest, last, rfl⟩
  · obtain ⟨rfl, hq⟩ := List.append_inj' heq rfl
    cases hq
    exact hp
  · rw [List.concat_eq_append, ← List.cons_append, ← List.append_assoc] at heq
    obtain ⟨rfl, -⟩ := List.append_inj' heq rfl
    exact h earlier q rest rfl

theorem FirstFault.not_faultless (h : FirstFault limits order fault) :
    ¬ Faultless limits order := by
  obtain ⟨before, p, after, heq, -, hp, -⟩ := h
  exact fun hnone => hnone before p after heq fault hp

/-- Lists without fault that end before a faulty position are not of different length. -/
theorem Faultless.length_le {before' after' : List Position} {p' : Position}
    (h : Faultless limits before) (hp : HasFault limits before' p' fault)
    (heq : before ++ p :: after = before' ++ p' :: after') : before.length ≤ before'.length := by
  rcases List.append_eq_append_iff.1 heq with ⟨middle, rfl, -⟩ | ⟨middle, rfl, hmiddle⟩
  · exact List.length_append ▸ Nat.le_add_right _ _
  · cases middle with
    | nil => exact Nat.le_of_eq (congrArg List.length (List.append_nil before'))
    | cons first rest =>
      rw [List.cons_append, List.cons.injEq] at hmiddle
      obtain ⟨rfl, -⟩ := hmiddle
      exact absurd hp (h before' p' rest rfl fault)

theorem FirstFault.unique (h : FirstFault limits order fault)
    (h' : FirstFault limits order other) : fault = other := by
  obtain ⟨before, p, after, rfl, hnone, hp⟩ := h
  obtain ⟨before', p', after', heq, hnone', hp'⟩ := h'
  have hlength : before.length = before'.length :=
    Nat.le_antisymm (hnone.length_le hp'.1 heq) (hnone'.length_le hp.1 heq.symm)
  obtain ⟨rfl, htail⟩ := List.append_inj heq hlength
  obtain ⟨rfl, -⟩ := List.cons.inj htail
  exact hp.unique hp'

-- ============================================================================
-- The check of a waiting position
-- ============================================================================

/-- The place of the specification that waits. -/
def Pending.position (p : Pending) : Position := ⟨p.spec, p.path.reverse⟩

/-- The identifiers of a list of positions are those of the index. -/
def Names (index : Std.HashMap String Nat) (positions : List Position) : Prop :=
  ∀ id, id ∈ index ↔ ∃ q ∈ positions, q.spec.id = some id

variable {index : Std.HashMap String Nat} {q : Pending} {id : String}

theorem Names.insert (h : Names index before) (hid : p.spec.id = some id) (place : Nat) :
    Names (index.insert id place) (before ++ [p]) := by
  intro name
  rw [Std.HashMap.mem_insert, beq_iff_eq, h name]
  constructor
  · rintro (rfl | ⟨q, hq, hname⟩)
    · exact ⟨p, by simp, hid⟩
    · exact ⟨q, by simp [hq], hname⟩
  · rintro ⟨q, hq, hname⟩
    rcases List.mem_append.1 hq with hq | hq
    · exact .inr ⟨q, hq, hname⟩
    · rw [List.mem_singleton.1 hq, hid] at hname
      exact .inl (Option.some.inj hname)

/-- A position with an identifier misses none. -/
theorem HasFault.one_le_rank (h : HasFault limits earlier p other) (hid : p.spec.id = some id) :
    1 ≤ other.rank := by
  cases h with
  | missingId hnone => rw [hid] at hnone; cases hnone
  | _ => simp [Fault.rank]

theorem HasFault.two_le_rank (h : HasFault limits earlier p other) (hid : p.spec.id = some id)
    (hdepth : p.depth ≤ limits.maxDepth) : 2 ≤ other.rank := by
  have hpos := h.one_le_rank hid
  cases h with
  | missingId => cases hpos
  | tooDeep _ hdeep => omega
  | _ => simp [Fault.rank]

theorem HasFault.three_le_rank (h : HasFault limits earlier p other) (hid : p.spec.id = some id)
    (hdepth : p.depth ≤ limits.maxDepth) (hfresh : ∀ q ∈ earlier, q.spec.id ≠ some id) :
    3 ≤ other.rank := by
  have htwo := h.two_le_rank hid hdepth
  cases h with
  | missingId => cases htwo
  | tooDeep => simp [Fault.rank] at htwo
  | duplicateId hid' hused =>
    obtain ⟨q, hq, hname⟩ := hused
    rw [hid] at hid'
    cases hid'
    exact absurd hname (hfresh q hq)
  | _ => simp [Fault.rank]

/-- The faults of last rank are those of value and successors. -/
theorem HasFault.of_three_le_rank (h : HasFault limits earlier p other)
    (hrank : 3 ≤ other.rank) :
    (p.spec.children ≠ [] ∧ p.spec.value ≠ none) ∨
    (p.spec.children = [] ∧ p.spec.value = none ∧ limits.valuelessLeaves = false) ∨
    (p.spec.children = [] ∧ ∃ v, p.spec.value = some v ∧ v.isFinite = false) := by
  cases h with
  | missingId => cases hrank
  | tooDeep => simp [Fault.rank] at hrank
  | duplicateId => simp [Fault.rank] at hrank
  | valueOnInternalNode _ hinner hvalue => exact .inl ⟨hinner, hvalue⟩
  | leafWithoutValue _ hleaf hvalue hstrict => exact .inr (.inl ⟨hleaf, hvalue, hstrict⟩)
  | nonFiniteValue _ hleaf hvalue hinfinite => exact .inr (.inr ⟨hleaf, _, hvalue, hinfinite⟩)

/-- The check passes if nothing is wrong, and otherwise tells the fault that decides. -/
theorem check_decisive (limits : Limits) (hnames : Names index earlier)
    (hdepth : q.depth = q.path.length) :
    match q.check limits index with
    | .ok id => q.spec.id = some id ∧ ∀ fault, ¬ HasFault limits earlier q.position fault
    | .error fault => Decisive limits earlier q.position fault := by
  have hplace : q.depth = q.position.depth := by
    rw [hdepth, Position.depth, Pending.position, List.length_reverse]
  rw [Pending.check, hplace]
  obtain ⟨⟨name, value, children⟩, parent, depth, path⟩ := q
  cases name with
  | none => exact ⟨.missingId rfl, fun _ _ => Nat.zero_le _⟩
  | some id =>
    by_cases hdeep : limits.maxDepth < path.reverse.length
    · simp only [Pending.position, Position.depth, if_pos hdeep]
      exact ⟨.tooDeep rfl hdeep, fun _ h => h.one_le_rank rfl⟩
    have hshallow := Nat.le_of_not_lt hdeep
    by_cases hused : index.contains id
    · simp only [Pending.position, Position.depth, if_neg hdeep, if_pos hused]
      exact ⟨.duplicateId rfl ((hnames id).1 (Std.HashMap.contains_iff_mem.1 hused)),
        fun _ h => h.two_le_rank rfl hshallow⟩
    have hfresh : ∀ r ∈ earlier, r.spec.id ≠ some id := fun r hr hname =>
      hused (Std.HashMap.contains_iff_mem.2 ((hnames id).2 ⟨r, hr, hname⟩))
    have hlast : ∀ other, HasFault limits earlier ⟨⟨some id, value, children⟩, path.reverse⟩ other →
        3 ≤ other.rank := fun _ h => h.three_le_rank rfl hshallow hfresh
    simp only [Pending.position, Position.depth, if_neg hdeep, if_neg hused]
    -- what is left are the faults of value and successors, and at most one of them is there
    have hkinds := fun other h => HasFault.of_three_le_rank h (hlast other h)
    cases children with
    | cons first rest =>
      cases value with
      | some v => exact ⟨.valueOnInternalNode rfl (by simp) (by simp), hlast⟩
      | none => exact ⟨rfl, fun other h => by simpa using hkinds other h⟩
    | nil =>
      cases value with
      | none =>
        by_cases hlenient : limits.valuelessLeaves
        · simp only [if_pos hlenient]
          exact ⟨trivial, fun other h => by simpa [hlenient] using hkinds other h⟩
        · simp only [if_neg hlenient]
          exact ⟨.leafWithoutValue rfl rfl rfl (by simpa using hlenient), hlast⟩
      | some v =>
        by_cases hfinite : v.isFinite
        · simp only [if_pos hfinite]
          exact ⟨trivial, fun other h => by simpa [hfinite] using hkinds other h⟩
        · simp only [if_neg hfinite]
          exact ⟨.nonFiniteValue rfl rfl rfl (by simpa using hfinite), hlast⟩

end GameSearch.Tree
