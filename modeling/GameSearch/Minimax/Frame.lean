/-
  GameSearch.Minimax.Frame

  Bookkeeping for one internal node while its children are evaluated: the window
  for the next child, the best value so far and the child it came from, and how far
  the walk over the children has come.
-/
import GameSearch.Tree.Basic

namespace GameSearch.Minimax

/-- The scores that still matter at a node: those between the two bounds. -/
structure Window where
  alpha : Score
  beta : Score

namespace Window

/-- No bound on either side. -/
def full : Window := ⟨Score.bottom, Score.top⟩

/-- Both bounds are numbers, and the lower one is not above the upper one. -/
def isOrdered (w : Window) : Bool :=
  !w.alpha.isNaN && !w.beta.isNaN && !(w.beta < w.alpha : Bool)

/-- No score lies strictly between the bounds. -/
def isClosed (w : Window) : Bool := w.beta ≤ w.alpha

/-- Raises the lower bound to a score reached by the maximising side, or lowers the upper bound
    to a score reached by the minimising side. -/
def narrow (kind : Kind) (value : Score) (w : Window) : Window :=
  match kind with
  | .max => { w with alpha := w.alpha.larger value }
  | .min => { w with beta := w.beta.smaller value }

end Window

/-- The first score is strictly better than the second for the given side. -/
def better (kind : Kind) (x y : Score) : Bool :=
  match kind with
  | .max => y < x
  | .min => x < y

/-- The score that every other one improves on. -/
def worst : Kind → Score
  | .max => Score.bottom
  | .min => Score.top

/-- An internal node whose children are being evaluated. -/
structure Frame where
  node : Nat
  kind : Kind
  /-- The window for the next child. -/
  window : Window
  /-- The best value so far. -/
  value : Score
  /-- The first child with that value. -/
  best : Option Nat

namespace Frame

/-- The frame of a node that was just entered. -/
def start (node : Nat) (kind : Kind) (window : Window) : Frame :=
  ⟨node, kind, window, worst kind, none⟩

/-- Takes the value of a child into account.  Only a strictly better value replaces the best one,
    so the leftmost child wins ties; the window moves only if cutoffs are wanted. -/
def absorb (pruning : Bool) (child : Nat) (value : Score) (f : Frame) : Frame :=
  let f := if better f.kind value f.value then { f with value := value, best := some child } else f
  if pruning then { f with window := f.window.narrow f.kind f.value } else f

/-- The other children cannot matter any more. -/
def isCutoff (pruning : Bool) (f : Frame) : Bool := pruning && f.window.isClosed

variable (pruning : Bool) (child : Nat) (x : Score) (f : Frame)

@[simp]
theorem absorb_node : (f.absorb pruning child x).node = f.node := by
  unfold absorb
  dsimp only
  split <;> split <;> rfl

@[simp]
theorem absorb_kind : (f.absorb pruning child x).kind = f.kind := by
  unfold absorb
  dsimp only
  split <;> split <;> rfl

/-- Of the values taken in the first best one stays. -/
theorem absorb_value :
    (f.absorb pruning child x).value = if better f.kind x f.value then x else f.value := by
  unfold absorb
  dsimp only
  split <;> split <;> rfl

theorem absorb_best :
    (f.absorb pruning child x).best = if better f.kind x f.value then some child else f.best := by
  unfold absorb
  dsimp only
  split <;> split <;> rfl

/-- With cutoffs the window narrows to the best value so far. -/
theorem absorb_window :
    (f.absorb pruning child x).window =
      if pruning then f.window.narrow f.kind (f.absorb pruning child x).value else f.window := by
  unfold absorb
  dsimp only
  split <;> split <;> rfl

end Frame

/-- A frame, and the position of the next child to evaluate. -/
structure Open where
  frame : Frame
  next : Nat

namespace Open

/-- The node that was just entered: no child was taken yet. -/
def start (node : Nat) (kind : Kind) (window : Window) : Open := ⟨Frame.start node kind window, 0⟩

/-- Takes the next child, if any remain. -/
def takeChild (children : List Nat) (o : Open) : Option (Nat × Open) :=
  match children[o.next]? with
  | some c => some (c, { o with next := o.next + 1 })
  | none => none

/-- The child that was taken last, read again by its position; absent if there is none at it. -/
def lastTaken (children : List Nat) (o : Open) : Option Nat :=
  match o.next with
  | 0 => none
  | k + 1 => children[k]?

/-- The children that were not taken yet. -/
def rest (children : List Nat) (o : Open) : List Nat := children.drop o.next

/-- Passes over the children that were not taken yet. -/
def skipRest (children : List Nat) (o : Open) : Open := { o with next := children.length }

/-- What is left before and after a child is taken. -/
theorem rest_of_takeChild {children : List Nat} {o o' : Open} {c : Nat}
    (h : o.takeChild children = some (c, o')) :
    o.rest children = c :: o'.rest children := by
  unfold takeChild at h
  split at h
  · rename_i d hd
    obtain ⟨hlt, hget⟩ := List.getElem?_eq_some_iff.1 hd
    cases h
    rw [rest, List.drop_eq_getElem_cons hlt, hget]
    rfl
  · cases h

/-- Nothing is left when no child can be taken. -/
theorem rest_of_takeChild_none {children : List Nat} {o : Open}
    (h : o.takeChild children = none) : o.rest children = [] := by
  unfold takeChild at h
  split at h
  · cases h
  · rename_i hnone
    exact List.drop_eq_nil_of_le (List.getElem?_eq_none_iff.1 hnone)

theorem frame_of_takeChild {children : List Nat} {o o' : Open} {c : Nat}
    (h : o.takeChild children = some (c, o')) : o'.frame = o.frame := by
  unfold takeChild at h
  split at h <;> cases h
  rfl

/-- The child just taken is found again at its position. -/
theorem lastTaken_of_takeChild {children : List Nat} {o o' : Open} {c : Nat}
    (h : o.takeChild children = some (c, o')) : o'.lastTaken children = some c := by
  unfold takeChild at h
  split at h <;> cases h
  assumption

@[simp]
theorem rest_skipRest (children : List Nat) (o : Open) :
    (o.skipRest children).rest children = [] := by
  simp [skipRest, rest]

end Open

end GameSearch.Minimax
