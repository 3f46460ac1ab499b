/-
Numbers that name the parts of a program and of a method body, and the faults
an operation reports when a number names nothing or a request makes no sense.
-/

namespace FlowFacts

/-- A type, numbered in the order in which types are first mentioned. -/
abbrev TypeId := Nat

/-- A field of the program, numbered in declaration order. -/
abbrev FieldId := Nat

/-- A method of the program, numbered in declaration order. -/
abbrev MethodId := Nat

/-- A value of one method body. -/
abbrev ValueId := Nat

/-- An instruction of one method body. -/
abbrev InstrId := Nat

/-- A block of one method body; block `0` is the entry. -/
abbrev BlockId := Nat

/-- Why an operation has no answer. -/
inductive Fault
  /-- The body has no such block. -/
  | noBlock (block : BlockId)
  /-- The body has no such instruction. -/
  | noInstruction (instr : InstrId)
  /-- The body has no such value. -/
  | noValue (value : ValueId)
  /-- The program has no such field. -/
  | noField (field : FieldId)
  /-- The program has no such method. -/
  | noMethod (method : MethodId)
  /-- Operands were given to a value that is not a phi. -/
  | notPhi (value : ValueId)
  /-- Two instructions to be compared stand in different blocks. -/
  | differentBlocks (first second : InstrId)
  /-- Dominators computed at one revision were asked about another. -/
  | staleDominators (built current : Nat)
  /-- The dominator iteration left the tree it was building. -/
  | brokenDominators
  /-- A table of this many slots cannot be addressed. -/
  | tableTooLong (length : Nat)
  /-- The exact class of a fresh object is not below its static type. -/
  | crossedBounds (value : ValueId)
  /-- Superclasses that lead back to themselves have been followed for ever. -/
  | endless
deriving DecidableEq, Repr

/-- A computation in two parts that succeeds has a first result, from which
the second part goes on. -/
theorem exists_of_bind {ε α β : Type} {first : Except ε α}
    {rest : α → Except ε β} {result : β}
    (hbind : (first >>= rest) = .ok result) :
    ∃ value, first = .ok value ∧ rest value = .ok result := by
  cases first with
  | error fault => cases hbind
  | ok value => exact ⟨value, rfl, hbind⟩

/-- A search that finds something has found it at some element. -/
theorem exists_of_anyM {ε α : Type} {test : α → Except ε Bool} {list : List α}
    (hany : list.anyM test = .ok true) :
    ∃ element ∈ list, test element = .ok true := by
  induction list with
  | nil => cases hany
  | cons head tail ih =>
      obtain ⟨found, hhead, hrest⟩ := exists_of_bind hany
      cases found with
      | true => exact ⟨head, List.mem_cons_self, hhead⟩
      | false =>
          obtain ⟨element, hmem, htest⟩ := ih hrest
          exact ⟨element, List.mem_cons_of_mem head hmem, htest⟩

/-- A search that finds nothing has found nothing at every element. -/
theorem forall_of_anyM {ε α : Type} {test : α → Except ε Bool} {list : List α}
    (hany : list.anyM test = .ok false) :
    ∀ element ∈ list, test element = .ok false := by
  induction list with
  | nil => simp
  | cons head tail ih =>
      obtain ⟨found, hhead, hrest⟩ := exists_of_bind hany
      cases found with
      | true => cases hrest
      | false => exact List.forall_mem_cons.mpr ⟨hhead, ih hrest⟩

/-- Tests that all succeed and pass have passed one by one. -/
theorem forall_of_allM {ε α : Type} {test : α → Except ε Bool} {list : List α}
    (hall : list.allM test = .ok true) :
    ∀ element ∈ list, test element = .ok true := by
  induction list with
  | nil => simp
  | cons head tail ih =>
      obtain ⟨passed, hhead, hrest⟩ := exists_of_bind hall
      cases passed with
      | true => exact List.forall_mem_cons.mpr ⟨hhead, ih hrest⟩
      | false => cases hrest

theorem allM_eq_true {ε α : Type} {test : α → Except ε Bool} {list : List α}
    (hall : ∀ element ∈ list, test element = .ok true) :
    list.allM test = .ok true := by
  induction list with
  | nil => rfl
  | cons head tail ih =>
      obtain ⟨hhead, htail⟩ := List.forall_mem_cons.mp hall
      rw [List.allM, hhead]
      exact ih htail

/-- What a search finds has been found at some element. -/
theorem exists_of_findSomeM? {ε α β : Type} {select : α → Except ε (Option β)}
    {list : List α} {found : β}
    (hfound : list.findSomeM? select = .ok (some found)) :
    ∃ element ∈ list, select element = .ok (some found) := by
  induction list with
  | nil => cases hfound
  | cons head tail ih =>
      obtain ⟨first, hhead, hrest⟩ := exists_of_bind hfound
      cases first with
      | some first =>
          obtain rfl := Option.some.inj (Except.ok.inj hrest)
          exact ⟨head, List.mem_cons_self, hhead⟩
      | none =>
          obtain ⟨element, hmem, helement⟩ := ih hrest
          exact ⟨element, List.mem_cons_of_mem head hmem, helement⟩

/-- What a selection gives has been selected from some element. -/
theorem exists_of_filterMapM {ε α β : Type} {select : α → Except ε (Option β)}
    {list : List α} {result : List β} (hresult : list.filterMapM select = .ok result) :
    ∀ selected ∈ result, ∃ element ∈ list, select element = .ok (some selected) := by
  induction list generalizing result with
  | nil =>
      obtain rfl := Except.ok.inj hresult
      simp
  | cons head tail ih =>
      rw [List.filterMapM_cons] at hresult
      obtain ⟨first, hhead, hrest⟩ := exists_of_bind hresult
      cases first with
      | none =>
          intro selected hselected
          obtain ⟨element, hmem, helement⟩ := ih hrest selected hselected
          exact ⟨element, List.mem_cons_of_mem head hmem, helement⟩
      | some first =>
          obtain ⟨rest, htail, hrest⟩ := exists_of_bind hrest
          obtain rfl := Except.ok.inj hrest
          refine List.forall_mem_cons.mpr ⟨⟨head, List.mem_cons_self, hhead⟩, ?_⟩
          intro selected hselected
          obtain ⟨element, hmem, helement⟩ := ih htail selected hselected
          exact ⟨element, List.mem_cons_of_mem head hmem, helement⟩

/-- A selection that succeeds has left out or selected every element. -/
theorem forall_of_filterMapM {ε α β : Type} {select : α → Except ε (Option β)}
    {list : List α} {result : List β} (hresult : list.filterMapM select = .ok result) :
    ∀ element ∈ list, select element = .ok none ∨
      ∃ selected ∈ result, select element = .ok (some selected) := by
  induction list generalizing result with
  | nil => simp
  | cons head tail ih =>
      rw [List.filterMapM_cons] at hresult
      obtain ⟨first, hhead, hrest⟩ := exists_of_bind hresult
      cases first with
      | none => exact List.forall_mem_cons.mpr ⟨Or.inl hhead, ih hrest⟩
      | some first =>
          obtain ⟨rest, htail, hrest⟩ := exists_of_bind hrest
          obtain rfl := Except.ok.inj hrest
          refine List.forall_mem_cons.mpr
            ⟨Or.inr ⟨first, List.mem_cons_self, hhead⟩, ?_⟩
          intro element hmem
          refine (ih htail element hmem).imp_right ?_
          rintro ⟨selected, hselected, helement⟩
          exact ⟨selected, List.mem_cons_of_mem first hselected, helement⟩

/-- What one step of a fold keeps, about the elements so far and the state,
holds after the fold. -/
theorem foldlM_induct {ε α σ : Type} {step : σ → α → Except ε σ}
    {P : List α → σ → Prop}
    (hstep : ∀ done element state state', P done state →
      step state element = .ok state' → P (done ++ [element]) state')
    {list : List α} {state state' : σ} (hstart : P [] state)
    (hfold : list.foldlM step state = .ok state') : P list state' := by
  have hfrom : ∀ done state, P done state →
      list.foldlM step state = .ok state' → P (done ++ list) state' := by
    clear hfold hstart
    induction list with
    | nil =>
        intro done state hdone hfold
        obtain rfl := Except.ok.inj hfold
        rwa [List.append_nil]
    | cons head tail ih =>
        intro done state hdone hfold
        rw [List.foldlM_cons] at hfold
        obtain ⟨middle, hhead, htail⟩ := exists_of_bind hfold
        have hrest := ih _ _ (hstep done head state middle hdone hhead) htail
        rwa [List.append_assoc] at hrest
  exact hfrom [] state hstart hfold

/-- The computation gives a result. -/
def Answers {α : Type} (computation : Except Fault α) : Prop :=
  ∃ result, computation = .ok result

namespace Answers

variable {α β : Type}

theorem ok (result : α) : Answers (.ok result) := ⟨result, rfl⟩

theorem pure (result : α) : Answers (Pure.pure result) := ⟨result, rfl⟩

theorem bind {first : Except Fault α} {rest : α → Except Fault β}
    (hfirst : Answers first)
    (hrest : ∀ result, first = .ok result → Answers (rest result)) :
    Answers (first >>= rest) := by
  obtain ⟨result, rfl⟩ := hfirst
  exact hrest result rfl

theorem ite {condition : Prop} [Decidable condition]
    {first second : Except Fault α} (hfirst : Answers first)
    (hsecond : Answers second) :
    Answers (if condition then first else second) := by
  split
  · exact hfirst
  · exact hsecond

theorem anyM {test : α → Except Fault Bool} {list : List α}
    (htest : ∀ element ∈ list, Answers (test element)) :
    Answers (list.anyM test) := by
  induction list with
  | nil => exact .ok false
  | cons head tail ih =>
      refine .bind (htest head List.mem_cons_self) ?_
      intro found _
      cases found with
      | true => exact .ok true
      | false =>
          exact ih fun element hmem =>
            htest element (List.mem_cons_of_mem head hmem)

theorem allM {test : α → Except Fault Bool} {list : List α}
    (htest : ∀ element ∈ list, Answers (test element)) :
    Answers (list.allM test) := by
  induction list with
  | nil => exact .ok true
  | cons head tail ih =>
      obtain ⟨hhead, htail⟩ := List.forall_mem_cons.mp htest
      refine .bind hhead fun passed _ => ?_
      cases passed with
      | true => exact ih htail
      | false => exact .ok false

theorem filterMapM {select : α → Except Fault (Option β)} {list : List α}
    (hselect : ∀ element ∈ list, Answers (select element)) :
    Answers (list.filterMapM select) := by
  induction list with
  | nil => exact .ok []
  | cons head tail ih =>
      obtain ⟨hhead, htail⟩ := List.forall_mem_cons.mp hselect
      rw [List.filterMapM_cons]
      refine .bind hhead fun selected _ => ?_
      cases selected with
      | none => exact ih htail
      | some selected => exact .bind (ih htail) fun _ _ => .pure _

theorem findSomeM? {select : α → Except Fault (Option β)} {list : List α}
    (hselect : ∀ element ∈ list, Answers (select element)) :
    Answers (list.findSomeM? select) := by
  induction list with
  | nil => exact .ok none
  | cons head tail ih =>
      obtain ⟨hhead, htail⟩ := List.forall_mem_cons.mp hselect
      refine .bind hhead fun found _ => ?_
      cases found with
      | none => exact ih htail
      | some found => exact .ok _

theorem foldlM {step : β → α → Except Fault β} {list : List α}
    (hstep : ∀ state, ∀ element ∈ list, Answers (step state element))
    (state : β) : Answers (list.foldlM step state) := by
  induction list generalizing state with
  | nil => exact .ok state
  | cons head tail ih =>
      rw [List.foldlM_cons]
      refine .bind (hstep state head List.mem_cons_self) fun next _ => ?_
      refine ih (fun state element hmem => ?_) next
      exact hstep state element (List.mem_cons_of_mem head hmem)

end Answers

end FlowFacts
