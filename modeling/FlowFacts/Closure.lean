/-
Everything that can be reached from some start nodes, found round by round.
A node enters the frontier at most once, so as many rounds as there are nodes
are enough.
-/

namespace FlowFacts

/-- Keep the first occurrence of every node that is not in `seen`. -/
def firstUnseen (seen : List Nat) : List Nat → List Nat
  | [] => []
  | node :: rest =>
      if node ∈ seen then firstUnseen seen rest
      else node :: firstUnseen (node :: seen) rest

theorem mem_firstUnseen {seen candidates : List Nat} {node : Nat} :
    node ∈ firstUnseen seen candidates ↔ node ∈ candidates ∧ node ∉ seen := by
  induction candidates generalizing seen with
  | nil => simp [firstUnseen]
  | cons head tail ih =>
      by_cases hseen : head ∈ seen
      · simp only [firstUnseen, hseen, ↓reduceIte, ih, List.mem_cons]
        constructor
        · exact fun h => ⟨Or.inr h.1, h.2⟩
        · rintro ⟨rfl | h, hnot⟩
          · exact absurd hseen hnot
          · exact ⟨h, hnot⟩
      · simp only [firstUnseen, hseen, ↓reduceIte, List.mem_cons, ih]
        by_cases heq : node = head
        · subst heq
          simp [hseen]
        · simp [heq]

theorem firstUnseen_nodup (seen candidates : List Nat) :
    (firstUnseen seen candidates).Nodup := by
  induction candidates generalizing seen with
  | nil => simp [firstUnseen]
  | cons head tail ih =>
      by_cases hseen : head ∈ seen
      · simpa [firstUnseen, hseen] using ih seen
      · simp only [firstUnseen, hseen, ↓reduceIte, List.nodup_cons]
        refine ⟨?_, ih (head :: seen)⟩
        simp [mem_firstUnseen]

/-- Expand the frontier for a number of rounds.  Nodes in `closed` have been
expanded, nodes in the frontier have not. -/
def expandRounds (next : Nat → List Nat) :
    Nat → List Nat → List Nat → List Nat
  | 0, closed, frontier => closed ++ frontier
  | rounds + 1, closed, frontier =>
      if frontier.isEmpty then closed
      else
        let closed := closed ++ frontier
        expandRounds next rounds closed
          (firstUnseen closed (frontier.flatMap next))

/-- The nodes reached from `start` along `next` in at most `rounds` steps. -/
def closure (next : Nat → List Nat) (rounds : Nat) (start : List Nat) :
    List Nat :=
  expandRounds next rounds [] (firstUnseen [] start)

end FlowFacts
