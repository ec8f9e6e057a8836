import KernelSpec.Number.Binary64

/-! # Similar words

The Jaro similarity of two words: how many characters they share near the same places, and how many
of these are out of order. It is computed in binary64, rounded after every operation, because
candidates are compared by it.
-/

namespace KernelSpec.Similar

/-- Takes the first free character equal to `c` within the bounds, counting from `j`. -/
def claim (c : Char) (low high : Nat) : Nat → List (Char × Bool) → Option (List (Char × Bool))
  | _, [] => none
  | j, (d, taken) :: rest =>
    if low ≤ j && j < high && d == c && !taken then some ((d, true) :: rest)
    else (claim c low high (j + 1) rest).map ((d, taken) :: ·)

/-- The characters of the first word, from position `i` on, that find a partner within the window,
and the second word with the partners marked. -/
def claimAll (window : Nat) : Nat → List Char → List (Char × Bool) → List Char × List (Char × Bool)
  | _, [], marks => ([], marks)
  | i, c :: rest, marks =>
    match claim c (i - window) (i + window + 1) 0 marks with
    | none => claimAll window (i + 1) rest marks
    | some marks =>
      let (found, marks) := claimAll window (i + 1) rest marks
      (c :: found, marks)

/-- The sum of three ratios divided by three. -/
def average (a b c : Nat × Nat) : Option Binary64 := do
  let x ← Binary64.ofRatio? false a.1 a.2
  let y ← Binary64.ofRatio? false b.1 b.2
  let z ← Binary64.ofRatio? false c.1 c.2
  let three ← Binary64.ofRatio? false 3 1
  (← (← x.add? y).add? z).div? three

def zero : Binary64 := ⟨false, 0, Binary64.minExponent⟩

/-- The Jaro similarity, from zero to one. -/
def jaro (a b : List Char) : Binary64 :=
  let window := max a.length b.length / 2 - 1
  let (left, marks) := claimAll window 0 a (b.map (·, false))
  let right := (marks.filter (·.2)).map (·.1)
  let shared := left.length
  let swaps := ((left.zip right).countP fun pair => pair.1 != pair.2) / 2
  if shared = 0 then zero
  else
    (average (shared, a.length) (shared, b.length) (shared - swaps, shared)).getD zero

/-- Words are similar above seven tenths. -/
def threshold : Binary64 := (Binary64.ofRatio? false 7 10).getD zero

/-- The candidate most similar to a word, if any is similar; the last of equals. -/
def best? {α : Type} (word : String) (name : α → String) (candidates : List α) : Option α :=
  let scored := candidates.map fun candidate =>
    (jaro word.toList (name candidate).toList, candidate)
  let similar := scored.filter fun entry => threshold.lt entry.1
  let best := similar.foldl
    (fun best entry =>
      match best with
      | some before => if entry.1.lt before.1 then some before else some entry
      | none => some entry)
    (none : Option (Binary64 × α))
  best.map (·.2)

end KernelSpec.Similar
