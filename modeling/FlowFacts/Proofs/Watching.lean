/-
Watching an object over instructions and blocks.  An instruction that passes
leaves the object alone and never takes back that other code can reach it; a
scan of blocks that finds no modification has passed the flag of every block
on to the blocks that follow it.  What passes with the flag set passes without
it, and of the instructions that took part only the membership counts.
-/
import FlowFacts.Proofs.Closures
import FlowFacts.Proofs.Explanations

namespace FlowFacts

def Opcode.storesInto? : Opcode → Option ValueId
  | arrayPut array _ _ | fillArray array _ => some array
  | instancePut _ object _ => some object
  | _ => none

namespace Body

variable {body : Body} {program : Program} {watch : Watch}
variable {instr : InstrId} {instrs first second consumed : List InstrId}
variable {escaped entry after left : Bool}

/-- What is known of an instruction that does not modify the object. -/
structure Passes (body : Body) (program : Program) (watch : Watch)
    (instr : InstrId) (escaped after : Bool) : Prop where
  kept : escaped = true → after = true
  released : instr ∉ watch.consumed → ∀ {field value},
    body.opcode instr = .staticPut field value → value ∈ watch.aliases →
      after = true
  apart : instr ∉ watch.consumed → ∀ {object},
    (body.opcode instr).storesInto? = some object → object ∉ watch.aliases
  quiet : instr ∉ watch.consumed → escaped = true →
    (body.opcode instr).storesInto? = none →
      body.hasEffect program instr = .ok false ∨ ∃ field value definition,
        body.opcode instr = .staticPut field value ∧
          program.field field = .ok definition ∧
            (definition.holder = watch.holder ∨
              body.startsObservably program definition.holder = .ok false)

theorem Passes.of_store {object : ValueId}
    (hstores : (body.opcode instr).storesInto? = some object)
    (hapart : object ∉ watch.aliases) (hkept : escaped = true → after = true) :
    body.Passes program watch instr escaped after where
  kept := hkept
  released _ := by
    intro field value hput
    rw [hput] at hstores
    cases hstores
  apart _ := by
    intro other hother
    obtain rfl := Option.some.inj (hstores.symm.trans hother)
    exact hapart
  quiet _ _ hnone := by
    rw [hstores] at hnone
    cases hnone

/-- An instruction that does nothing to objects by itself passes if it has no
effect, or if nobody else can reach the object. -/
theorem Passes.of_effect
    (hput : ∀ field value, body.opcode instr ≠ .staticPut field value)
    (hstores : (body.opcode instr).storesInto? = none)
    (hstep : (do
      if escaped then
        if ← body.hasEffect program instr then return none
        else return some true
      else return some false) = Except.ok (some after)) :
    body.Passes program watch instr escaped after := by
  have hresult : after = escaped ∧
      (escaped = true → body.hasEffect program instr = .ok false) := by
    cases escaped with
    | false => exact ⟨(Option.some.inj (Except.ok.inj hstep)).symm, by simp⟩
    | true =>
        obtain ⟨effect, heffect, hrest⟩ := exists_of_bind hstep
        cases effect with
        | true => cases hrest
        | false =>
            exact ⟨(Option.some.inj (Except.ok.inj hrest)).symm, fun _ => heffect⟩
  obtain ⟨rfl, heffect⟩ := hresult
  constructor
  · exact id
  · exact fun _ {field value} hopcode => absurd hopcode (hput field value)
  · intro _ object hobject
    rw [hstores] at hobject
    cases hobject
  · exact fun _ hescaped _ => Or.inl (heffect hescaped)

theorem Passes.of_staticPut {field : FieldId} {value : ValueId}
    {definition : FieldDecl} {isObserved : Bool}
    (hopcode : body.opcode instr = .staticPut field value)
    (hfield : program.field field = .ok definition)
    (hobserved : isObserved = false → definition.holder = watch.holder ∨
      body.startsObservably program definition.holder = .ok false)
    (hstep : (if value ∈ watch.aliases then
        if isObserved then return none else return some true
      else if escaped && isObserved then return none
      else return some escaped : Except Fault (Option Bool)) =
        .ok (some after)) :
    body.Passes program watch instr escaped after := by
  have hresult : value ∈ watch.aliases ∨ escaped = true →
      after = true ∧ isObserved = false := by
    intro hreached
    split at hstep
    · cases isObserved with
      | true => cases hstep
      | false => exact ⟨(Option.some.inj (Except.ok.inj hstep)).symm, rfl⟩
    · next hname =>
        obtain rfl := hreached.resolve_left hname
        cases isObserved with
        | true => cases hstep
        | false => exact ⟨(Option.some.inj (Except.ok.inj hstep)).symm, rfl⟩
  constructor
  · exact fun hescaped => (hresult (Or.inr hescaped)).1
  · intro _ other name hother hname
    obtain ⟨rfl, rfl⟩ := Opcode.staticPut.inj (hopcode.symm.trans hother)
    exact (hresult (Or.inl hname)).1
  · intro _ object hobject
    rw [hopcode] at hobject
    cases hobject
  · intro _ hescaped _
    exact Or.inr ⟨field, value, definition, hopcode, hfield,
      hobserved (hresult (Or.inr hescaped)).2⟩

theorem passes_of_watchStep
    (hstep : body.watchStep program watch instr escaped = .ok (some after)) :
    body.Passes program watch instr escaped after := by
  by_cases hconsumed : instr ∈ watch.consumed
  · simp only [watchStep, List.contains_iff_mem, hconsumed, if_true] at hstep
    obtain rfl := Option.some.inj (Except.ok.inj hstep)
    exact ⟨by simp +contextual, absurd hconsumed, absurd hconsumed,
      absurd hconsumed⟩
  · simp only [watchStep, List.contains_iff_mem, hconsumed, if_false] at hstep
    cases hopcode : body.opcode instr with
    | arrayPut array index value =>
        simp only [hopcode] at hstep
        split at hstep
        · cases hstep
        · next hapart =>
            obtain rfl := Option.some.inj (Except.ok.inj hstep)
            exact .of_store (by rw [hopcode]; rfl) hapart (by simp +contextual)
    | fillArray array data =>
        simp only [hopcode] at hstep
        split at hstep
        · cases hstep
        · next hapart =>
            obtain rfl := Option.some.inj (Except.ok.inj hstep)
            exact .of_store (by rw [hopcode]; rfl) hapart id
    | instancePut field object value =>
        simp only [hopcode] at hstep
        split at hstep
        · cases hstep
        · next hapart =>
            obtain rfl := Option.some.inj (Except.ok.inj hstep)
            exact .of_store (by rw [hopcode]; rfl) hapart (by simp +contextual)
    | call kind method arguments =>
        simp only [hopcode] at hstep
        split at hstep
        · cases hstep
        · exact .of_effect (by simp [hopcode]) (by rw [hopcode]; rfl) hstep
    | staticPut field value =>
        simp only [hopcode] at hstep
        obtain ⟨definition, hfield, hstep⟩ := exists_of_bind hstep
        split at hstep
        · next hholder =>
            obtain ⟨isObserved, _, hstep⟩ := exists_of_bind hstep
            exact .of_staticPut hopcode hfield (fun _ => Or.inl hholder) hstep
        · obtain ⟨isObserved, hstarts, hstep⟩ := exists_of_bind hstep
          refine .of_staticPut hopcode hfield ?_ hstep
          rintro rfl
          exact Or.inr hstarts
    | _ =>
        simp only [hopcode] at hstep
        exact .of_effect (by simp [hopcode]) (by rw [hopcode]; rfl) hstep

theorem watchOver_append
    (hover : body.watchOver program watch (first ++ second) escaped =
      .ok (some after)) :
    ∃ middle, body.watchOver program watch first escaped = .ok (some middle) ∧
      body.watchOver program watch second middle = .ok (some after) := by
  induction first generalizing escaped with
  | nil => exact ⟨escaped, rfl, hover⟩
  | cons head tail ih =>
      obtain ⟨stepped, hstep, hrest⟩ := exists_of_bind hover
      cases stepped with
      | none => cases hrest
      | some next =>
          obtain ⟨middle, hfirst, hsecond⟩ := ih hrest
          refine ⟨middle, ?_, hsecond⟩
          rw [watchOver, hstep]
          exact hfirst

/-- Once other code can reach the object, it always can. -/
theorem watchOver_kept
    (hover : body.watchOver program watch instrs true = .ok (some after)) :
    after = true := by
  induction instrs with
  | nil => exact (Option.some.inj (Except.ok.inj hover)).symm
  | cons head tail ih =>
      obtain ⟨stepped, hstep, hrest⟩ := exists_of_bind hover
      cases stepped with
      | none => cases hrest
      | some next =>
          obtain rfl := (passes_of_watchStep hstep).kept rfl
          exact ih hrest

/-- What counts as a modification of an object that nobody else can reach
counts in any case. -/
theorem watchStep_eq_none
    (hstep : body.watchStep program watch instr false = .ok none)
    (escaped : Bool) :
    body.watchStep program watch instr escaped = .ok none := by
  have hdirect : ∀ {isWatched flag : Bool},
      (if isWatched = true then pure none else pure (some flag) :
        Except Fault (Option Bool)) = .ok none → isWatched = true := by
    intro isWatched flag hnone
    cases isWatched with
    | false => cases hnone
    | true => rfl
  have hstored : ∀ {isWatched isObserved : Bool},
      (if isWatched = true then
          if isObserved = true then pure none else pure (some true)
        else if (false && isObserved) = true then pure none
        else pure (some false) : Except Fault (Option Bool)) = .ok none →
      isWatched = true ∧ isObserved = true := by
    intro isWatched isObserved hnone
    cases isObserved with
    | false => cases isWatched <;> cases hnone
    | true => exact ⟨hdirect hnone, rfl⟩
  simp only [watchStep] at hstep ⊢
  split at hstep
  · cases hstep
  · next hconsumed =>
      rw [if_neg hconsumed]
      cases hopcode : body.opcode instr with
      | arrayPut | fillArray | instancePut | call =>
          simp only [hopcode] at hstep ⊢
          rw [if_pos (hdirect hstep)]
          rfl
      | staticPut field value =>
          simp only [hopcode] at hstep ⊢
          obtain ⟨declared, hfield, hstep⟩ := exists_of_bind hstep
          split at hstep
          · cases (hstored hstep).2
          · next hholder =>
              obtain ⟨isObserved, hstarts, hstep⟩ := exists_of_bind hstep
              obtain ⟨hwatched, rfl⟩ := hstored hstep
              simp only [hfield, bind, Except.bind, hholder, hstarts, hwatched,
                if_true, if_false]
              rfl
      | _ =>
          simp only [hopcode] at hstep
          cases hstep

theorem watchOver_of_append
    (hfirst : body.watchOver program watch first escaped = .ok (some after)) :
    body.watchOver program watch (first ++ second) escaped =
      body.watchOver program watch second after := by
  induction first generalizing escaped with
  | nil =>
      obtain rfl := Option.some.inj (Except.ok.inj hfirst)
      rfl
  | cons head tail ih =>
      obtain ⟨stepped, hstep, hrest⟩ := exists_of_bind hfirst
      cases stepped with
      | none => cases hrest
      | some middle =>
          rw [List.cons_append, watchOver, hstep]
          exact ih hrest

theorem watchOver_append_eq_none
    (hover : body.watchOver program watch (first ++ second) escaped =
      .ok none) :
    body.watchOver program watch first escaped = .ok none ∨
      ∃ middle, body.watchOver program watch first escaped =
        .ok (some middle) ∧
          body.watchOver program watch second middle = .ok none := by
  induction first generalizing escaped with
  | nil => exact Or.inr ⟨escaped, rfl, hover⟩
  | cons head tail ih =>
      obtain ⟨stepped, hstep, hrest⟩ := exists_of_bind hover
      rw [watchOver, hstep]
      cases stepped with
      | none => exact Or.inl rfl
      | some next => exact ih hrest

/-- Where an object passes that other code can reach, it passes also if other
code cannot. -/
theorem watchOver_ne_none
    (hover : body.watchOver program watch instrs entry = .ok (some after))
    (hentry : escaped = true → entry = true) :
    body.watchOver program watch instrs escaped ≠ .ok none := by
  intro hnone
  induction instrs generalizing escaped entry with
  | nil => cases hnone
  | cons head tail ih =>
      obtain ⟨stepped, hstep, hrest⟩ := exists_of_bind hover
      obtain ⟨other, hother, hnone⟩ := exists_of_bind hnone
      cases stepped with
      | none => cases hrest
      | some passed =>
          cases other with
          | none =>
              cases escaped with
              | false =>
                  rw [watchStep_eq_none hother] at hstep
                  cases hstep
              | true =>
                  rw [hentry rfl, hother] at hstep
                  cases hstep
          | some left =>
              refine ih hrest ?_ hnone
              rintro rfl
              cases entry with
              | true => exact (passes_of_watchStep hstep).kept rfl
              | false =>
                  obtain rfl : escaped = false := by simpa using hentry
                  rw [hother] at hstep
                  exact (Option.some.inj (Except.ok.inj hstep)).symm

/-- An object that more code can reach on entry can be reached by more code
afterwards. -/
theorem watchOver_mono
    (hover : body.watchOver program watch instrs entry = .ok (some after))
    (hleft : body.watchOver program watch instrs escaped = .ok (some left))
    (hentry : escaped = true → entry = true) : left = true → after = true := by
  cases entry with
  | true => exact fun _ => watchOver_kept hover
  | false =>
      obtain rfl : escaped = false := by simpa using hentry
      rw [hover] at hleft
      obtain rfl := Option.some.inj (Except.ok.inj hleft)
      exact id

variable {queue : List BlockId} {flags : Array (Option Bool)}
variable {block source target start : BlockId}

/-- The flag of a block is what watching over it gives, entered with a flag
that is at least this one. -/
def EnteredWith (body : Body) (program : Program) (watch : Watch)
    (flags : Array (Option Bool)) (escaped : Bool) (target : BlockId) : Prop :=
  ∃ entry after, (escaped = true → entry = true) ∧
    body.watchOver program watch (body.instructionsOf target) entry =
      .ok (some after) ∧
    flags.getD target none = some after

/-- The flag of every block has reached the blocks that follow it, as far as
these are not in the queue. -/
def PassedOn (body : Body) (program : Program) (watch : Watch)
    (queue : List BlockId) (flags : Array (Option Bool)) : Prop :=
  ∀ {source escaped}, flags.getD source none = some escaped →
    ∀ target ∈ body.successors source,
      target ∈ queue ∨ body.EnteredWith program watch flags escaped target

/-- The flag with which a block is entered. -/
def entryFlag (body : Body) (flags : Array (Option Bool)) (block : BlockId) :
    Bool :=
  (body.graph.previous block).any fun source =>
    flags.getD source none == some true

theorem entryFlag_eq_true (hflag : flags.getD source none = some true)
    (hedge : block ∈ body.successors source) :
    body.entryFlag flags block = true := by
  rw [entryFlag, List.any_eq_true]
  refine ⟨source, Graph.mem_previous.mpr (mem_graph_next.mpr hedge), ?_⟩
  simpa using hflag

theorem PassedOn.skip (hpassed : body.PassedOn program watch (block :: queue) flags)
    (hover : body.watchOver program watch (body.instructionsOf block)
      (body.entryFlag flags block) = .ok (some after))
    (hflag : flags.getD block none = some after) :
    body.PassedOn program watch queue flags := by
  intro source escaped hsource target hedge
  rcases hpassed hsource target hedge with hqueued | hentered
  · rcases List.mem_cons.mp hqueued with rfl | hqueued
    · right
      refine ⟨_, after, ?_, hover, hflag⟩
      rintro rfl
      exact entryFlag_eq_true hsource hedge
    · exact Or.inl hqueued
  · exact Or.inr hentered

/-- A block with a new flag queues all that follow it. -/
theorem PassedOn.enter
    (hpassed : body.PassedOn program watch (block :: queue) flags)
    (hblock : block < flags.size)
    (hover : body.watchOver program watch (body.instructionsOf block)
      (body.entryFlag flags block) = .ok (some after)) :
    body.PassedOn program watch (queue ++ body.graph.next block)
      (flags.setIfInBounds block (some after)) := by
  intro source escaped hsource target hedge
  rw [getD_setIfInBounds hblock] at hsource
  split at hsource
  · next heq =>
      subst heq
      exact Or.inl (List.mem_append_right queue (mem_graph_next.mpr hedge))
  · by_cases htarget : target = block
    · subst htarget
      right
      refine ⟨_, after, ?_, hover, by simp [getD_setIfInBounds hblock]⟩
      rintro rfl
      exact entryFlag_eq_true hsource hedge
    · rcases hpassed hsource target hedge with hqueued | hentered
      · left
        have hmem := (List.mem_cons.mp hqueued).resolve_left htarget
        exact List.mem_append_left _ hmem
      · right
        obtain ⟨entry, result, hentry, hscan, hflag⟩ := hentered
        refine ⟨entry, result, hentry, hscan, ?_⟩
        rw [getD_setIfInBounds hblock, if_neg htarget, hflag]

/-- At first only the block that a scan starts from has a flag. -/
theorem passedOn_start (hblock : block < body.blocks.size) (escaped : Bool) :
    body.PassedOn program watch (body.graph.next block)
      ((Array.replicate body.blocks.size none).setIfInBounds block
        (some escaped)) := by
  intro source flag hsource target hedge
  rw [getD_setIfInBounds (by simpa using hblock)] at hsource
  split at hsource
  · next heq =>
      subst heq
      exact Or.inl (mem_graph_next.mpr hedge)
  · rw [Array.getD_eq_getD_getElem?, Array.getElem?_replicate] at hsource
    split at hsource <;> cases hsource

/-- A scan that ends without a modification has passed on every flag.  The
block it starts from keeps a flag with a property that watching over the whole
block always gives. -/
theorem exists_passedOn_of_watchBlocks {steps : Nat} {P : Bool → Prop}
    (hP : ∀ {entry after}, body.watchOver program watch
      (body.instructionsOf start) entry = .ok (some after) → P after)
    (hsize : flags.size = body.blocks.size)
    (hpassed : body.PassedOn program watch queue flags)
    (hstart : ∃ escaped, flags.getD start none = some escaped ∧ P escaped)
    (hblocks : body.watchBlocks program body.graph watch steps queue flags =
      .ok false) :
    ∃ final, body.PassedOn program watch [] final ∧
      ∃ escaped, final.getD start none = some escaped ∧ P escaped := by
  induction steps generalizing queue flags with
  | zero => cases hblocks
  | succ steps ih =>
      cases queue with
      | nil => exact ⟨flags, hpassed, hstart⟩
      | cons block queue =>
          obtain ⟨content, hcontent, hrest⟩ := exists_of_bind hblocks
          obtain ⟨watched, hwatched, hrest⟩ := exists_of_bind hrest
          have hblock : block < flags.size := by
            rw [hsize]
            exact lt_size_of_block hcontent
          cases watched with
          | none => cases hrest
          | some after =>
              have hover : body.watchOver program watch
                  (body.instructionsOf block) (body.entryFlag flags block) =
                    .ok (some after) := by
                rw [instructionsOf_eq (block_eq_ok.mp hcontent)]
                exact hwatched
              dsimp only at hrest
              by_cases hflag : flags.getD block none = some after
              · rw [if_pos hflag] at hrest
                exact ih hsize (hpassed.skip hover hflag) hstart hrest
              · rw [if_neg hflag] at hrest
                refine ih ?_ (hpassed.enter hblock hover) ?_ hrest
                · rw [Array.size_setIfInBounds, hsize]
                · rw [getD_setIfInBounds hblock]
                  split
                  · next heq =>
                      subst heq
                      exact ⟨after, rfl, hP hover⟩
                  · exact hstart

theorem watchStep_answers (hcovers : program.Covers body)
    (hroots : program.HasRoots) (instr : InstrId) (escaped : Bool) :
    Answers (body.watchStep program watch instr escaped) := by
  have hother : Answers (do
      if escaped then
        if ← body.hasEffect program instr then return none
        else return some true
      else return some false) := by
    exact .ite (.bind (hasEffect_answers hcovers hroots instr) fun _ _ =>
      .ite (.pure none) (.pure _)) (.pure _)
  simp only [watchStep]
  apply Answers.ite (.pure _)
  cases hopcode : body.opcode instr with
  | arrayPut array index value => exact .ite (.pure _) (.pure _)
  | fillArray array data => exact .ite (.pure _) (.pure _)
  | instancePut field object value => exact .ite (.pure _) (.pure _)
  | call kind method arguments => exact .ite (.pure _) hother
  | staticPut field value =>
      have hresult : ∀ isObserved : Bool, Answers
          (if watch.aliases.contains value = true then
            if isObserved = true then pure none else pure (some true)
          else if (escaped && isObserved) = true then pure none
          else pure (some escaped) : Except Fault (Option Bool)) := fun _ =>
        .ite (.ite (.pure _) (.pure _)) (.ite (.pure _) (.pure _))
      refine .bind (hcovers.written hopcode) fun definition _ => ?_
      apply Answers.ite
      · exact hresult false
      · exact .bind (startsObservably_answers hcovers hroots _)
          fun isObserved _ => hresult isObserved
  | _ => exact hother

theorem watchOver_answers (hcovers : program.Covers body)
    (hroots : program.HasRoots) (instrs : List InstrId) (escaped : Bool) :
    Answers (body.watchOver program watch instrs escaped) := by
  induction instrs generalizing escaped with
  | nil => exact .ok _
  | cons head tail ih =>
      refine .bind (watchStep_answers hcovers hroots head escaped) fun stepped _ => ?_
      cases stepped with
      | none => exact .pure none
      | some after => exact ih after

theorem watchBlocks_answers {steps : Nat} (hbody : body.WellFormed)
    (hcovers : program.Covers body) (hroots : program.HasRoots)
    (hqueue : ∀ block ∈ queue, block < body.blocks.size) :
    Answers (body.watchBlocks program body.graph watch steps queue flags) := by
  induction steps generalizing queue flags with
  | zero => exact .ok true
  | succ steps ih =>
      cases queue with
      | nil => exact .ok false
      | cons block queue =>
          rw [List.forall_mem_cons] at hqueue
          have hfetch : Answers (body.block block) :=
            ⟨_, block_eq_ok.mpr (Array.getElem?_eq_getElem hqueue.1)⟩
          refine .bind hfetch fun content _ => ?_
          refine .bind (watchOver_answers hcovers hroots _ _) fun watched _ => ?_
          cases watched with
          | none => exact .pure true
          | some after =>
              by_cases hflag : flags.getD block none = some after
              · simp only [hflag, if_true]
                exact ih hqueue.2
              · simp only [hflag, if_false]
                apply ih
                intro target htarget
                rcases List.mem_append.mp htarget with hold | hnew
                · exact hqueue.2 target hold
                · exact hbody.successor_lt (mem_graph_next.mp hnew)

theorem mayBeModified_answers (hbody : body.WellFormed)
    (hcovers : program.Covers body) (hroots : program.HasRoots)
    (consumed : List InstrId) (value : ValueId) :
    Answers (body.mayBeModified program consumed value) := by
  rw [mayBeModified]
  split
  · exact .pure true
  · dsimp only
    split
    · exact .pure true
    · refine .bind (Program.method_answers hcovers.method) fun running _ => ?_
      refine .bind (watchOver_answers hcovers hroots _ _) fun watched _ => ?_
      cases watched with
      | none => exact .pure true
      | some escaped =>
          apply watchBlocks_answers hbody hcovers hroots
          intro target htarget
          exact hbody.successor_lt (mem_graph_next.mp htarget)

end Body

end FlowFacts
