import Typewright.Text.Bytes

/-!
# Resolving clashes

Each candidate in turn keeps its spelling if that is still free; otherwise the least number that makes
it free is put behind it. `assignNames` remembers for each spelling how far its numbers were tried, so
that a later candidate with the same spelling goes on from there.
-/

namespace Typewright

/-- The first number after `n` that makes `candidate` free when put behind it, within a number of steps. -/
def nextSuffix (taken : List Bytes) (candidate : Bytes) : Nat → Nat → Nat
  | 0, n => n + 1
  | steps + 1, n =>
    if candidate ++ Bytes.decimal (n + 1) ∈ taken then nextSuffix taken candidate steps (n + 1) else n + 1

/-- The names taken so far, and the last number tried for each candidate. -/
structure NamingState where
  taken : List Bytes
  counters : List (Bytes × Nat)

/-- A free name for one candidate, which is taken from then on. Of the numbers after the counter at most
as many are taken as there are taken names, so a free one is found. -/
def NamingState.assign (s : NamingState) (candidate : Bytes) : Bytes × NamingState :=
  if candidate ∈ s.taken then
    let n := nextSuffix s.taken candidate s.taken.length ((s.counters.lookup candidate).getD 0)
    let name := candidate ++ Bytes.decimal n
    (name, ⟨name :: s.taken, (candidate, n) :: s.counters⟩)
  else (candidate, ⟨candidate :: s.taken, s.counters⟩)

def NamingState.assignAll (s : NamingState) : List Bytes → List Bytes
  | [] => []
  | c :: cs =>
    let (name, s) := s.assign c
    name :: s.assignAll cs

/-- One name for each candidate: all different, and none of them reserved. -/
def assignNames (candidates reserved : List Bytes) : List Bytes :=
  NamingState.assignAll ⟨reserved, []⟩ candidates

end Typewright
