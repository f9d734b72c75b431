/-
  GameSearch.Random.Source

  Sources of random choices.  A search needs only one kind of choice: an element of
  a list, all elements alike.  Nothing is drawn for an empty list.
-/
namespace GameSearch

/-- A source of random choices with states in `γ`. -/
class RandomSource (γ : Type) where
  /-- One of the numbers from zero up to `n`. -/
  upTo : (n : Nat) → γ → Fin (n + 1) × γ

namespace RandomSource

variable {γ : Type} [RandomSource γ]

/-- An element of a list; absent if there is none. -/
def choose {α : Type} : List α → γ → Option α × γ
  | [], g => (none, g)
  | x :: rest, g =>
    let (k, g) := upTo rest.length g
    (some ((x :: rest).get k), g)

/-- What is chosen is in the list. -/
theorem mem_of_choose {α : Type} {xs : List α} {g : γ} {x : α}
    (h : (choose xs g).1 = some x) : x ∈ xs := by
  cases xs with
  | nil => simp [choose] at h
  | cons y rest =>
    simp only [choose, Option.some.injEq] at h
    rw [← h]
    exact List.get_mem _ _

end RandomSource

end GameSearch
