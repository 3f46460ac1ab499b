/-
Initialization on every path.  Runs of a body are traced instruction by
instruction; a block is left at its end or, at the instruction that throws,
through a handler that can catch what is thrown.  When the query says that a
class is initialized, every trace up to the instruction shows why.
-/
import FlowFacts.Initialization.Session
import FlowFacts.Proofs.DominatorTree
import FlowFacts.Proofs.Marks

namespace FlowFacts

/-- What a run does with one instruction. -/
inductive Event
  | completed (instr : InstrId)
  | threw (instr : InstrId)
deriving DecidableEq, Repr

/-- Can a handler catch what an instruction may throw? -/
def Handler.Admits (handler : Handler) (program : Program) (opcode : Opcode) :
    Prop :=
  ∀ guard, handler.guard = some guard →
    opcode.thrown.mayBeCaughtBy program guard = true

namespace Body

variable {body : Body} {program : Program} {block target : BlockId}
variable {trace : List Event} {instr : InstrId}

/-- A run arrives at a block, having done what the trace says. -/
inductive Arrives (body : Body) (program : Program) :
    BlockId → List Event → Prop
  | entry : Arrives body program Body.entry []
  | normally {block target : BlockId} {trace : List Event}
      (harrives : Arrives body program block trace)
      (htarget : target ∈ body.normalSuccessors block) :
      Arrives body program target
        (trace ++ (body.instructionsOf block).map .completed)
  | caught {block : BlockId} {trace : List Event} {before after : List InstrId}
      {instr : InstrId} {handler : Handler}
      (harrives : Arrives body program block trace)
      (hsplit : body.instructionsOf block = before ++ instr :: after)
      (hthrows : (body.opcode instr).canThrow = true)
      (hhandler : handler ∈ body.handlersOf block)
      (hadmits : handler.Admits program (body.opcode instr)) :
      Arrives body program handler.target
        (trace ++ before.map .completed ++ [.threw instr])

/-- A run gets as far as the instruction. -/
inductive Leads (body : Body) (program : Program) (instr : InstrId) :
    List Event → Prop
  | within {block : BlockId} {trace : List Event} {before after : List InstrId}
      (harrives : Arrives body program block trace)
      (hsplit : body.instructionsOf block = before ++ instr :: after) :
      Leads body program instr (trace ++ before.map .completed)

/-- The trace shows how a block was left by a run that came to another. -/
inductive Left (body : Body) (program : Program) (block target : BlockId)
    (trace : List Event) : Prop
  | normally (hdone : ∀ instr ∈ body.instructionsOf block,
      .completed instr ∈ trace)
  | caught {before after : List InstrId} {instr : InstrId} {handler : Handler}
      (hsplit : body.instructionsOf block = before ++ instr :: after)
      (hthrows : (body.opcode instr).canThrow = true)
      (hhandler : handler ∈ body.handlersOf block)
      (hadmits : handler.Admits program (body.opcode instr))
      (hreaches : body.graph.Reaches handler.target target)
      (hbefore : ∀ instr ∈ before, .completed instr ∈ trace)
      (hthrew : .threw instr ∈ trace)

theorem Left.extend {next : BlockId} {more : List Event}
    (hleft : body.Left program block target trace)
    (hedge : next ∈ body.graph.next target) :
    body.Left program block next (trace ++ more) := by
  cases hleft with
  | normally hdone =>
      exact .normally fun instr hinstr =>
        List.mem_append_left more (hdone instr hinstr)
  | caught hsplit hthrows hhandler hadmits hreaches hbefore hthrew =>
      exact .caught hsplit hthrows hhandler hadmits
        (hreaches.append_edge hedge)
        (fun instr hinstr => List.mem_append_left more (hbefore instr hinstr))
        (List.mem_append_left more hthrew)

/-- The blocks of a run form a path, and all but the last have been left. -/
theorem Arrives.exists_path (harrives : body.Arrives program block trace) :
    ∃ path, body.graph.Path Body.entry path block ∧
      ∀ passed ∈ path, passed = block ∨
        body.Left program passed block trace := by
  induction harrives with
  | entry =>
      exact ⟨[Body.entry], .single _, fun passed hpassed =>
        Or.inl (List.mem_singleton.mp hpassed)⟩
  | @normally block target trace _ htarget ih =>
      obtain ⟨path, hpath, hleft⟩ := ih
      have hedge : target ∈ body.graph.next block :=
        mem_graph_next.mpr (mem_successors.mpr (Or.inl htarget))
      refine ⟨path ++ [target], hpath.append_edge hedge, ?_⟩
      intro passed hpassed
      rcases List.mem_append.mp hpassed with hpassed | hpassed
      · right
        rcases hleft passed hpassed with rfl | hbefore
        · exact .normally fun instr hinstr =>
            List.mem_append_right trace (List.mem_map_of_mem hinstr)
        · exact hbefore.extend hedge
      · exact Or.inl (List.mem_singleton.mp hpassed)
  | @caught block trace before after instr handler _ hsplit hthrows hhandler
      hadmits ih =>
      obtain ⟨path, hpath, hleft⟩ := ih
      have hedge : handler.target ∈ body.graph.next block :=
        mem_graph_next.mpr (mem_successors.mpr
          (Or.inr ⟨handler, hhandler, rfl⟩))
      refine ⟨path ++ [handler.target], hpath.append_edge hedge, ?_⟩
      intro passed hpassed
      rcases List.mem_append.mp hpassed with hpassed | hpassed
      · right
        rcases hleft passed hpassed with rfl | hbefore
        · refine .caught hsplit hthrows hhandler hadmits
            (Graph.Reaches.refl _ _) ?_ ?_
          · intro instr hinstr
            exact List.mem_append_left _
              (List.mem_append_right _ (List.mem_map_of_mem hinstr))
          · exact List.mem_append_right _ (List.mem_singleton_self _)
        · rw [List.append_assoc]
          exact hbefore.extend hedge
      · exact Or.inl (List.mem_singleton.mp hpassed)

/-- A run that arrives at a block has left its strict dominators. -/
theorem Arrives.left_of_strict {tree : Dominators} {above : List BlockId}
    (harrives : body.Arrives program block trace)
    (htree : tree.Describes body) (hblock : block < body.blocks.size)
    (habove : tree.strict block = .ok above) :
    ∀ dominator ∈ above, body.Left program dominator block trace := by
  obtain ⟨path, hpath, hleft⟩ := harrives.exists_path
  obtain ⟨above', habove', hmem⟩ := htree.strict_eq_ok hblock
  obtain rfl := Except.ok.inj (habove.symm.trans habove')
  intro dominator hdominator
  obtain ⟨hdominates, hne⟩ := (hmem dominator).mp hdominator
  rcases hdominates with heq | ⟨_, hpaths⟩
  · exact absurd heq hne
  · exact (hleft dominator (hpaths path hpath)).resolve_left hne

theorem throughThrowing_subset (body : Body) (instrs : List InstrId) :
    body.throughThrowing instrs ⊆ instrs := by
  induction instrs with
  | nil => exact List.Subset.refl []
  | cons head rest ih =>
      rw [throughThrowing]
      split
      · simp
      · exact List.cons_subset_cons head ih

theorem throughThrowing_append {before after : List InstrId}
    (hbefore : ∀ other ∈ before, (body.opcode other).canThrow = false)
    (hthrows : (body.opcode instr).canThrow = true) :
    body.throughThrowing (before ++ instr :: after) = before ++ [instr] := by
  induction before with
  | nil => simp [throughThrowing, hthrows]
  | cons head rest ih =>
      rw [List.forall_mem_cons] at hbefore
      rw [List.cons_append, throughThrowing, hbefore.1, ih hbefore.2]
      rfl

theorem startedIn_subset {content : Block}
    (hcontent : body.blocks[block]? = some content)
    (hstarted : instr ∈ body.startedIn content) :
    instr ∈ body.instructionsOf block := by
  rw [instructionsOf_eq hcontent]
  rw [startedIn] at hstarted
  split at hstarted
  · exact hstarted
  · exact body.throughThrowing_subset _ hstarted

/-- What counts as started in a block that has been left was started. -/
theorem Left.of_startedIn (hbody : body.WellFormed) {content : Block}
    (hcontent : body.blocks[block]? = some content)
    (hleft : body.Left program block target trace)
    (hstarted : instr ∈ body.startedIn content) :
    .completed instr ∈ trace ∨ .threw instr ∈ trace := by
  cases hleft with
  | normally hdone =>
      exact Or.inl (hdone instr (startedIn_subset hcontent hstarted))
  | caught hsplit hthrows hhandler _ _ hbefore hthrew =>
      have hhandlers : body.handlersOf block ≠ [] := List.ne_nil_of_mem hhandler
      have hquiet := hbody.not_canThrow_of_before hhandlers hsplit hthrows
      rw [handlersOf_eq hcontent] at hhandlers
      have hnonempty : ¬ content.handlers.isEmpty = true := by
        simpa using hhandlers
      rw [startedIn, if_neg hnonempty, ← instructionsOf_eq hcontent, hsplit,
        throughThrowing_append hquiet hthrows] at hstarted
      rcases List.mem_append.mp hstarted with hstarted | hstarted
      · exact Or.inl (hbefore instr hstarted)
      · rw [List.mem_singleton.mp hstarted]
        exact Or.inr hthrew

end Body

namespace Marks

variable {body : Body} {marks : Marks}

/-- The marks, if they are for a target, are right for it. -/
def Faithful (marks : Marks) (body : Body) : Prop :=
  ∀ target, marks.target = some target → ∀ block,
    (marks.isMarked block = true ↔ body.graph.Reaches block target)

theorem Faithful.marksFor {kept : Option Marks}
    (hkept : ∀ marks, kept = some marks → marks.Faithful body)
    {target : BlockId} (hmarks : body.marksFor kept target = .ok marks) :
    marks.Faithful body ∧ marks.target = some target := by
  simp only [Body.marksFor] at hmarks
  split at hmarks
  · next htarget =>
      obtain rfl := Except.ok.inj hmarks
      refine ⟨?_, htarget⟩
      cases kept with
      | none => cases htarget
      | some marks => exact hkept marks rfl
  · have htarget := (retarget_isMarked hmarks target).1
    refine ⟨?_, htarget⟩
    intro other hother block
    obtain rfl := Option.some.inj (htarget.symm.trans hother)
    exact (retarget_isMarked hmarks block).2

end Marks

namespace Body

variable {body : Body} {program : Program} {type : TypeId}
variable {trace : List Event} {dominator target : BlockId}
variable {kept kept' : Option Marks} {completion : Completion}

/-- The trace shows that a class has been initialized: by an instruction that
completed, or by one that does so even when it throws. -/
def InitializedOn (body : Body) (program : Program) (type : TypeId)
    (trace : List Event) : Prop :=
  ∃ instr,
    (.completed instr ∈ trace ∧
      body.triggers program .transitive .normal instr type = .ok true) ∨
    ((.completed instr ∈ trace ∨ .threw instr ∈ trace) ∧
      body.triggers program .transitive .unknown instr type = .ok true)

theorem InitializedOn.append_left {more : List Event}
    (hshown : body.InitializedOn program type trace) :
    body.InitializedOn program type (trace ++ more) := by
  obtain ⟨instr, ⟨hdone, htriggers⟩ | ⟨hdone | hthrew, htriggers⟩⟩ := hshown
  · exact ⟨instr, Or.inl ⟨List.mem_append_left more hdone, htriggers⟩⟩
  · exact ⟨instr, Or.inr
      ⟨Or.inl (List.mem_append_left more hdone), htriggers⟩⟩
  · exact ⟨instr, Or.inr
      ⟨Or.inr (List.mem_append_left more hthrew), htriggers⟩⟩

/-- A dominator is taken to have completed only if no handler of it that can
catch something leads to the target. -/
theorem completionIn_spec (hbody : body.WellFormed)
    (hkept : ∀ marks, kept = some marks → marks.Faithful body)
    (hcompletion : body.completionIn program kept dominator target =
      .ok (completion, kept')) :
    (∀ marks, kept' = some marks → marks.Faithful body) ∧
      (completion = .normal → ∀ trace,
        body.Left program dominator target trace →
        ∀ instr ∈ body.instructionsOf dominator, .completed instr ∈ trace) := by
  obtain ⟨content, hfetch, hrest⟩ := exists_of_bind hcompletion
  have hcontent := block_eq_ok.mp hfetch
  cases hthrowing : body.throwing? dominator with
  | none =>
      simp only [hthrowing] at hrest
      obtain ⟨rfl, rfl⟩ := Prod.mk.inj (Except.ok.inj hrest)
      refine ⟨hkept, fun _ trace hleft => ?_⟩
      cases hleft with
      | normally hdone => exact hdone
      | caught hsplit hthrows hhandler =>
          rw [hbody.throwing?_eq (List.ne_nil_of_mem hhandler) hsplit hthrows]
            at hthrowing
          cases hthrowing
  | some thrower =>
      simp only [hthrowing] at hrest
      obtain ⟨marks, hmarks, hrest⟩ := exists_of_bind hrest
      obtain ⟨hfaithful, htarget⟩ := Marks.Faithful.marksFor hkept hmarks
      have hkept' : ∀ other, some marks = some other →
          other.Faithful body := by
        rintro other ⟨rfl⟩
        exact hfaithful
      split at hrest
      · obtain ⟨rfl, rfl⟩ := Prod.mk.inj (Except.ok.inj hrest)
        exact ⟨hkept', fun hnormal => by cases hnormal⟩
      · next hnoArrival =>
          obtain ⟨rfl, rfl⟩ := Prod.mk.inj (Except.ok.inj hrest)
          refine ⟨hkept', fun _ trace hleft => ?_⟩
          cases hleft with
          | normally hdone => exact hdone
          | @caught _ _ instr handler hsplit hthrows hhandler hadmits hreaches =>
              exfalso
              rw [hbody.throwing?_eq (List.ne_nil_of_mem hhandler) hsplit
                hthrows, Option.some.injEq] at hthrowing
              subst hthrowing
              have hmarked := (hfaithful target htarget handler.target).mpr
                hreaches
              rw [handlersOf_eq hcontent] at hhandler
              apply hnoArrival
              refine List.any_eq_true.mpr ⟨handler, hhandler, ?_⟩
              cases hguard : handler.guard with
              | none => simp [hmarked]
              | some guard => simp [hmarked, hadmits guard hguard]

/-- A search through dominators that finds something shows it on every run
that has left them towards the target. -/
theorem isInitializedInDominators_spec (hbody : body.WellFormed)
    {dominators : List BlockId} {found : Bool}
    (hkept : ∀ marks, kept = some marks → marks.Faithful body)
    (hsearch : body.isInitializedInDominators program type target dominators
      kept = .ok (found, kept')) :
    (∀ marks, kept' = some marks → marks.Faithful body) ∧
      (found = true → ∀ trace, (∀ dominator ∈ dominators,
        body.Left program dominator target trace) →
        body.InitializedOn program type trace) := by
  induction dominators generalizing kept with
  | nil =>
      obtain ⟨rfl, rfl⟩ := Prod.mk.inj (Except.ok.inj hsearch)
      exact ⟨hkept, fun hfound => by cases hfound⟩
  | cons dominator rest ih =>
      obtain ⟨⟨completion, middle⟩, hcompletion, hsearch⟩ :=
        exists_of_bind hsearch
      obtain ⟨content, hfetch, hsearch⟩ := exists_of_bind hsearch
      obtain ⟨here, hhere, hsearch⟩ := exists_of_bind hsearch
      obtain ⟨hmiddle, hnormal⟩ := completionIn_spec hbody hkept hcompletion
      cases here with
      | false =>
          obtain ⟨hrest, hshown⟩ := ih hmiddle hsearch
          refine ⟨hrest, fun hfound trace hleft => hshown hfound trace ?_⟩
          exact (List.forall_mem_cons.mp hleft).2
      | true =>
          obtain ⟨rfl, rfl⟩ := Prod.mk.inj (Except.ok.inj hsearch)
          refine ⟨hmiddle, fun _ trace hleft => ?_⟩
          have hleft := (List.forall_mem_cons.mp hleft).1
          obtain ⟨instr, hstarted, htriggers⟩ := exists_of_anyM hhere
          have hcontent := block_eq_ok.mp hfetch
          cases completion with
          | normal =>
              have hmem := startedIn_subset hcontent hstarted
              exact ⟨instr, Or.inl ⟨hnormal rfl trace hleft instr hmem,
                htriggers⟩⟩
          | unknown =>
              exact ⟨instr, Or.inr
                ⟨hleft.of_startedIn hbody hcontent hstarted, htriggers⟩⟩

end Body

namespace InitSession

variable {session session' : InitSession} {body : Body} {program : Program}
variable {type : TypeId} {instr : InstrId}

/-- What the session keeps is right for the body. -/
structure Faithful (session : InitSession) (body : Body) : Prop where
  tree : ∀ tree, session.tree = some tree → tree.Describes body
  marks : ∀ marks, session.marks = some marks → marks.Faithful body

theorem Faithful.treeFor (hbody : body.WellFormed)
    (hsession : session.Faithful body) {tree : Dominators}
    (htree : session.treeFor body = .ok tree) : tree.Describes body := by
  have hcurrent : ∀ {found : Dominators},
      (if found.builtAt = body.revision then pure found
        else throw (.staleDominators found.builtAt body.revision) :
        Except Fault Dominators) = .ok tree → found = tree := by
    intro found hif
    split at hif
    · exact Except.ok.inj hif
    · cases hif
  cases hkept : session.tree with
  | some kept =>
      simp only [InitSession.treeFor, hkept] at htree
      obtain rfl := hcurrent htree
      exact hsession.tree _ hkept
  | none =>
      simp only [InitSession.treeFor, hkept] at htree
      obtain ⟨found, hfound, hrest⟩ := exists_of_bind htree
      obtain rfl := hcurrent hrest
      obtain ⟨built, hbuilt, hdescribes, _⟩ := Body.exists_dominators hbody
      obtain rfl := Except.ok.inj (hbuilt.symm.trans hfound)
      exact hdescribes

/-- A question leaves the session right for the body, and a positive answer
is shown by every run. -/
theorem Faithful.query (hbody : body.WellFormed)
    (hsession : session.Faithful body)
    (hprogram : session.program = some program) {found : Bool}
    (hquery : session.query body type instr = .ok (found, session')) :
    session'.Faithful body ∧ session'.program = some program ∧
      (found = true → ∀ trace, body.Leads program instr trace →
        body.InitializedOn program type trace) := by
  simp only [InitSession.query, hprogram] at hquery
  obtain ⟨instruction, hinstruction, hquery⟩ := exists_of_bind hquery
  obtain ⟨here, hhere, hquery⟩ := exists_of_bind hquery
  cases here with
  | true =>
      obtain ⟨rfl, rfl⟩ := Prod.mk.inj (Except.ok.inj hquery)
      refine ⟨hsession, hprogram, fun _ trace hleads => ?_⟩
      obtain ⟨previous, hprevious, htriggers⟩ := exists_of_anyM hhere
      obtain ⟨harrives, hsplit⟩ := hleads
      rw [hbody.before_eq hsplit] at hprevious
      exact ⟨previous, Or.inl
        ⟨List.mem_append_right _ (List.mem_map_of_mem hprevious), htriggers⟩⟩
  | false =>
      obtain ⟨tree, htree, hquery⟩ := exists_of_bind hquery
      obtain ⟨dominators, hdominators, hquery⟩ := exists_of_bind hquery
      obtain ⟨⟨answer, marks⟩, hsearch, hquery⟩ := exists_of_bind hquery
      obtain ⟨rfl, rfl⟩ := Prod.mk.inj (Except.ok.inj hquery)
      have hdescribes := hsession.treeFor hbody htree
      obtain ⟨hmarks, hshown⟩ :=
        Body.isInitializedInDominators_spec hbody hsession.marks hsearch
      refine ⟨⟨?_, hmarks⟩, rfl, ?_⟩
      · rintro _ ⟨rfl⟩
        exact hdescribes
      · intro hfound trace hleads
        obtain @⟨block, _, _, _, harrives, hsplit⟩ := hleads
        have hmem : instr ∈ body.instructionsOf block := by simp [hsplit]
        rw [← Body.blockOf_of_instruction hinstruction,
          hbody.blockOf_eq hmem] at hdominators hshown
        apply Body.InitializedOn.append_left
        apply hshown hfound
        exact harrives.left_of_strict hdescribes
          (Body.lt_of_mem_instructionsOf hmem) hdominators

/-- A session about a body: any questions, and any forgetting in between. -/
inductive Held (program : Program) (body : Body) : InitSession → Prop
  | fresh : Held program body { program := some program }
  | query {session session' : InitSession} {type : TypeId} {instr : InstrId}
      {found : Bool} (hheld : Held program body session)
      (hquery : session.query body type instr = .ok (found, session')) :
      Held program body session'
  | finish {session : InitSession} (hheld : Held program body session) :
      Held program body session.finish
  | notifyChanged {session : InitSession} (hheld : Held program body session) :
      Held program body session.notifyChanged

theorem Held.faithful (hbody : body.WellFormed)
    (hheld : Held program body session) :
    session.Faithful body ∧ session.program = some program := by
  induction hheld with
  | fresh => exact ⟨⟨by simp, by simp⟩, rfl⟩
  | query _ hquery ih =>
      obtain ⟨hfaithful, hprogram, _⟩ := ih.1.query hbody ih.2 hquery
      exact ⟨hfaithful, hprogram⟩
  | finish _ ih =>
      exact ⟨⟨ih.1.tree, by simp [InitSession.finish]⟩, ih.2⟩
  | notifyChanged _ ih =>
      refine ⟨⟨?_, ?_⟩, ih.2⟩ <;> simp [InitSession.notifyChanged]

/-- If a class is said to be initialized before an instruction, then every run
that gets to the instruction has executed what initializes the class. -/
theorem initializedOn_of_query (haccepted : body.Accepted)
    (hheld : Held program body session)
    (hquery : session.query body type instr = .ok (true, session')) :
    ∀ trace, body.Leads program instr trace →
      ∃ previous,
        (.completed previous ∈ trace ∧
          body.triggers program .transitive .normal previous type =
            .ok true) ∨
        ((.completed previous ∈ trace ∨ .threw previous ∈ trace) ∧
          body.triggers program .transitive .unknown previous type =
            .ok true) := by
  have hbody := haccepted.wellFormed
  obtain ⟨hfaithful, hprogram⟩ := hheld.faithful hbody
  exact (hfaithful.query hbody hprogram hquery).2.2 rfl

/-- A class is initialized under a handler that leads elsewhere. -/
def handledInit : Body where
  method := 0
  isStatic := true
  values := #[]
  instructions := #[⟨0, .initClass 0, none⟩, ⟨0, .goto 1, none⟩,
    ⟨1, .ret none, none⟩, ⟨2, .ret none, none⟩]
  blocks := #[⟨[0, 1], [], [⟨none, 2⟩]⟩, ⟨[2], [], []⟩, ⟨[3], [], []⟩]
  positions := #[0, 1, 0, 0]
  incoming := #[[], [0], [0]]

theorem handledInit_accepted : handledInit.Accepted :=
  ⟨0, true,
    [.block, .block, .block, .push 0 (.initClass 0), .push 0 (.goto 1),
      .push 1 (.ret none), .push 2 (.ret none), .handler 0 ⟨none, 2⟩],
    _, _, rfl, by decide +kernel⟩

def oneClass : Program where
  types := #[{ descriptor := .plain "LC;"
               definition := some { parent := none, traits := {} } }]

theorem handledInit_initializedOn :
    handledInit.Accepted ∧
      (∃ session', query { program := some oneClass } handledInit 0 2 =
        .ok (true, session')) ∧
      handledInit.Leads oneClass 2 [.completed 0, .completed 1] ∧
      ∃ previous,
        (.completed previous ∈ [Event.completed 0, Event.completed 1] ∧
          handledInit.triggers oneClass .transitive .normal previous 0 =
            .ok true) ∨
        ((.completed previous ∈ [Event.completed 0, Event.completed 1] ∨
            .threw previous ∈ [Event.completed 0, Event.completed 1]) ∧
          handledInit.triggers oneClass .transitive .unknown previous 0 =
            .ok true) := by
  have hquery : ∃ session', query { program := some oneClass } handledInit 0 2 =
      .ok (true, session') := ⟨_, rfl⟩
  have harrives : handledInit.Arrives oneClass 1
      ([] ++ [.completed 0, .completed 1]) :=
    .normally .entry (by decide)
  have hleads : handledInit.Leads oneClass 2 [.completed 0, .completed 1] :=
    .within harrives (show _ = [] ++ 2 :: [] from rfl)
  obtain ⟨session', hquery'⟩ := hquery
  exact ⟨handledInit_accepted, ⟨session', hquery'⟩, hleads,
    initializedOn_of_query handledInit_accepted .fresh hquery' _ hleads⟩

end InitSession

end FlowFacts
