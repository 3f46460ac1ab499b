/-
Watching an object along all ways.  The flag of a block stands for every way
that ends there: it is set by some way, and no way sets more.  So the scan of
blocks finds a modification if and only if one lies on some way from the
definition.  A flag is set once and then stays, so the scan runs empty.
-/
import Mathlib.Logic.Relation
import FlowFacts.Proofs.Publication
import FlowFacts.Proofs.Worklists

namespace FlowFacts

open Relation

namespace Body

variable {body : Body} {program : Program} {watch : Watch}
variable {definition : InstrId} {trace : List InstrId}
variable {escaped entry after : Bool} {block source target : BlockId}
variable {flags : Array (Option Bool)}

/-- Some way from the definition to the end of a block does not modify the
object and leaves it with the flag. -/
def LeftWith (body : Body) (program : Program) (watch : Watch)
    (definition : InstrId) (block : BlockId) (escaped : Bool) : Prop :=
  ∃ trace, body.Follows definition block trace ∧
    body.watchOver program watch trace false = .ok (some escaped)

/-- Some way from the definition modifies the object. -/
def ModifiedOnWay (body : Body) (program : Program) (watch : Watch)
    (definition : InstrId) : Prop :=
  ∃ block trace, body.Follows definition block trace ∧
    body.watchOver program watch trace false = .ok none

theorem LeftWith.onward
    (hleft : body.LeftWith program watch definition source escaped)
    (hedge : target ∈ body.successors source)
    (hover : body.watchOver program watch (body.instructionsOf target) escaped =
      .ok (some after)) :
    body.LeftWith program watch definition target after := by
  obtain ⟨trace, hfollows, htrace⟩ := hleft
  refine ⟨_, hfollows.step hedge, ?_⟩
  rw [watchOver_of_append htrace, hover]

theorem LeftWith.modified
    (hleft : body.LeftWith program watch definition source escaped)
    (hedge : target ∈ body.successors source)
    (hover : body.watchOver program watch (body.instructionsOf target) escaped =
      .ok none) :
    body.ModifiedOnWay program watch definition := by
  obtain ⟨trace, hfollows, htrace⟩ := hleft
  refine ⟨target, _, hfollows.step hedge, ?_⟩
  rw [watchOver_of_append htrace, hover]

/-- Where all flags have been passed on, no way modifies the object, and every
way is covered by the flag of the block where it ends. -/
theorem Follows.covered (hfollows : body.Follows definition block trace)
    (hover : body.watchOver program watch (body.after definition) false =
      .ok (some escaped))
    (hpassed : body.PassedOn program watch [] flags)
    (hstart : ∃ flag, flags.getD (body.blockOf definition) none = some flag ∧
      (escaped = true → flag = true)) :
    body.watchOver program watch trace false ≠ .ok none ∧
      ∀ left, body.watchOver program watch trace false = .ok (some left) →
        ∃ flag, flags.getD block none = some flag ∧
          (left = true → flag = true) := by
  induction hfollows with
  | start =>
      rw [hover]
      refine ⟨nofun, ?_⟩
      intro left hleft
      obtain rfl := Option.some.inj (Except.ok.inj hleft)
      exact hstart
  | @step source target trace _ hedge ih =>
      have hentered : ∀ {middle},
          body.watchOver program watch trace false = .ok (some middle) →
            body.EnteredWith program watch flags middle target := by
        intro middle hmiddle
        obtain ⟨flag, hflag, hle⟩ := ih.2 middle hmiddle
        obtain ⟨entry, after, hentry, hscan, htarget⟩ :=
          (hpassed hflag target hedge).resolve_left List.not_mem_nil
        exact ⟨entry, after, hentry ∘ hle, hscan, htarget⟩
      constructor
      · intro hnone
        rcases watchOver_append_eq_none hnone with hnone | ⟨middle, hmiddle, hnone⟩
        · exact ih.1 hnone
        · obtain ⟨entry, after, hentry, hscan, _⟩ := hentered hmiddle
          exact watchOver_ne_none hscan hentry hnone
      · intro left hleft
        obtain ⟨middle, hmiddle, hleft⟩ := watchOver_append hleft
        obtain ⟨entry, after, hentry, hscan, htarget⟩ := hentered hmiddle
        exact ⟨after, htarget, watchOver_mono hscan hleft hentry⟩

/-- Watching over the whole block of the definition gives at least the flag
that the instructions after the definition give. -/
theorem le_of_watchOver_block
    (hover : body.watchOver program watch (body.after definition) false =
      .ok (some escaped))
    (hscan : body.watchOver program watch
      (body.instructionsOf (body.blockOf definition)) entry =
        .ok (some after)) : escaped = true → after = true := by
  have hsplit : ∃ first, body.instructionsOf (body.blockOf definition) =
      first ++ body.after definition :=
    ⟨_, (List.take_append_drop _ _).symm⟩
  obtain ⟨first, hfirst⟩ := hsplit
  rw [hfirst] at hscan
  obtain ⟨middle, _, hscan⟩ := watchOver_append hscan
  exact watchOver_mono hscan hover nofun

end Body

/-- Where a scan of blocks stands: the blocks in line, and the flags with which
blocks are left. -/
structure Watching where
  queue : List BlockId
  flags : Array (Option Bool)
deriving DecidableEq, Repr

namespace Watching

variable {body : Body} {program : Program} {watch : Watch}
variable {definition : InstrId} {state next : Watching} {steps : Nat}
variable {queue : List BlockId} {flags : Array (Option Bool)}
variable {block source : BlockId} {escaped after answer : Bool}

/-- The scan skips a block whose flag stays as it is, or gives it a new flag
and puts its successors in line. -/
inductive Step (body : Body) (program : Program) (watch : Watch) :
    Watching → Watching → Prop
  | skip {queue : List BlockId} {flags : Array (Option Bool)} {block : BlockId}
      {after : Bool} (hblock : block < body.blocks.size)
      (hover : body.watchOver program watch (body.instructionsOf block)
        (body.entryFlag flags block) = .ok (some after))
      (hsame : flags.getD block none = some after) :
      Step body program watch ⟨block :: queue, flags⟩ ⟨queue, flags⟩
  | enter {queue : List BlockId} {flags : Array (Option Bool)} {block : BlockId}
      {after : Bool} (hblock : block < body.blocks.size)
      (hover : body.watchOver program watch (body.instructionsOf block)
        (body.entryFlag flags block) = .ok (some after))
      (hnew : flags.getD block none ≠ some after) :
      Step body program watch ⟨block :: queue, flags⟩
        ⟨queue ++ body.graph.next block, flags.setIfInBounds block (some after)⟩

/-- The scan before its first step, when the rest of the block of a definition
has left the flag. -/
def start (body : Body) (definition : InstrId) (escaped : Bool) :
    Watching where
  queue := body.graph.next (body.blockOf definition)
  flags := (Array.replicate body.blocks.size none).setIfInBounds
    (body.blockOf definition) (some escaped)

/-- The scan has come to an answer: no block is in line any more, or the one
at the head of the line modifies the object. -/
inductive Decided (body : Body) (program : Program) (watch : Watch) :
    Watching → Bool → Prop
  | unmodified {flags : Array (Option Bool)} :
      Decided body program watch ⟨[], flags⟩ false
  | modified {queue : List BlockId} {flags : Array (Option Bool)}
      {block : BlockId}
      (hover : body.watchOver program watch (body.instructionsOf block)
        (body.entryFlag flags block) = .ok none) :
      Decided body program watch ⟨block :: queue, flags⟩ true

/-- A scan steps on, or the block at the head of the line modifies the
object. -/
theorem step_or_modified
    (hblocks : body.watchBlocks program body.graph watch (steps + 1)
      (block :: queue) flags = .ok answer) :
    (∃ next, Step body program watch ⟨block :: queue, flags⟩ next ∧
      body.watchBlocks program body.graph watch steps next.queue next.flags =
        .ok answer) ∨
    Decided body program watch ⟨block :: queue, flags⟩ answer := by
  obtain ⟨content, hcontent, hrest⟩ := exists_of_bind hblocks
  obtain ⟨watched, hwatched, hrest⟩ := exists_of_bind hrest
  have hblock := Body.lt_size_of_block hcontent
  have hover : body.watchOver program watch (body.instructionsOf block)
      (body.entryFlag flags block) = .ok watched := by
    rw [Body.instructionsOf_eq (Body.block_eq_ok.mp hcontent)]
    exact hwatched
  cases watched with
  | none =>
      obtain rfl := Except.ok.inj hrest
      exact Or.inr (.modified hover)
  | some flag =>
      left
      dsimp only at hrest
      split at hrest
      · next hsame => exact ⟨_, .skip hblock hover hsame, hrest⟩
      · next hnew => exact ⟨_, .enter hblock hover hnew, hrest⟩

/-- Every flag is left by some way, every block in line follows one with a
flag, and a flag that is set stays set. -/
structure Sound (body : Body) (program : Program) (watch : Watch)
    (definition : InstrId) (state : Watching) : Prop where
  size_eq : state.flags.size = body.blocks.size
  left : ∀ {block escaped}, state.flags.getD block none = some escaped →
    body.LeftWith program watch definition block escaped
  queued : ∀ block ∈ state.queue, ∃ source escaped,
    block ∈ body.successors source ∧
      state.flags.getD source none = some escaped
  lasting : ∀ {block}, state.flags.getD block none = some true →
    ∀ {entry after}, (body.entryFlag state.flags block = true → entry = true) →
      body.watchOver program watch (body.instructionsOf block) entry =
        .ok (some after) → after = true

/-- A block in line is entered with the flag of some way. -/
theorem Sound.exists_entry (hsound : Sound body program watch definition state)
    (hblock : block ∈ state.queue) :
    ∃ source, block ∈ body.successors source ∧
      body.LeftWith program watch definition source
        (body.entryFlag state.flags block) := by
  cases hentry : body.entryFlag state.flags block with
  | true =>
      obtain ⟨source, hsource, hflag⟩ := List.any_eq_true.mp hentry
      have hedge := Body.mem_graph_next.mp (Graph.mem_previous.mp hsource)
      exact ⟨source, hedge, hsound.left (eq_of_beq hflag)⟩
  | false =>
      obtain ⟨source, escaped, hedge, hflag⟩ := hsound.queued block hblock
      cases escaped with
      | false => exact ⟨source, hedge, hsound.left hflag⟩
      | true =>
          rw [Body.entryFlag_eq_true hflag hedge] at hentry
          cases hentry

theorem Sound.kept (hsound : Sound body program watch definition state)
    (hstep : Step body program watch state next)
    (hflag : state.flags.getD block none = some true) :
    next.flags.getD block none = some true := by
  cases hstep with
  | skip => exact hflag
  | @enter queue flags entered after hentered hover hnew =>
      rw [getD_setIfInBounds (by rw [hsound.size_eq]; exact hentered)]
      split
      · next heq =>
          subst heq
          rw [hsound.lasting hflag id hover]
      · exact hflag

theorem Sound.entryFlag_kept (hsound : Sound body program watch definition state)
    (hstep : Step body program watch state next)
    (hentry : body.entryFlag state.flags block = true) :
    body.entryFlag next.flags block = true := by
  obtain ⟨source, hsource, hflag⟩ := List.any_eq_true.mp hentry
  have hedge := Body.mem_graph_next.mp (Graph.mem_previous.mp hsource)
  exact Body.entryFlag_eq_true (hsound.kept hstep (eq_of_beq hflag)) hedge

theorem Sound.step (hsound : Sound body program watch definition state)
    (hstep : Step body program watch state next) :
    Sound body program watch definition next := by
  have hkept : ∀ block, body.entryFlag state.flags block = true →
      body.entryFlag next.flags block = true := fun _ =>
    hsound.entryFlag_kept hstep
  cases hstep with
  | skip =>
      refine ⟨hsound.size_eq, hsound.left, ?_, hsound.lasting⟩
      intro block hblock
      exact hsound.queued block (List.mem_cons_of_mem _ hblock)
  | @enter queue flags entered after hentered hover hnew =>
      have hsize : entered < flags.size := by
        rw [hsound.size_eq]
        exact hentered
      refine ⟨?_, ?_, ?_, ?_⟩
      · exact Array.size_setIfInBounds.trans hsound.size_eq
      · intro block escaped hflag
        rw [getD_setIfInBounds hsize] at hflag
        split at hflag
        · next heq =>
            subst heq
            obtain rfl := Option.some.inj hflag
            obtain ⟨source, hedge, hleft⟩ :=
              hsound.exists_entry List.mem_cons_self
            exact hleft.onward hedge hover
        · exact hsound.left hflag
      · intro block hblock
        have hsource : ∃ source, block ∈ body.successors source ∧
            (source = entered ∨ ∃ escaped,
              flags.getD source none = some escaped) := by
          rcases List.mem_append.mp hblock with hqueued | hnext
          · obtain ⟨source, escaped, hedge, hflag⟩ :=
              hsound.queued block (List.mem_cons_of_mem _ hqueued)
            exact ⟨source, hedge, Or.inr ⟨escaped, hflag⟩⟩
          · exact ⟨entered, Body.mem_graph_next.mp hnext, Or.inl rfl⟩
        obtain ⟨source, hedge, hflag⟩ := hsource
        by_cases heq : source = entered
        · exact ⟨source, after, hedge, by
            rw [getD_setIfInBounds hsize, if_pos heq]⟩
        · obtain ⟨escaped, hflag⟩ := hflag.resolve_left heq
          exact ⟨source, escaped, hedge, by
            rw [getD_setIfInBounds hsize, if_neg heq, hflag]⟩
      · intro block hflag entry scanned hentry hscan
        rw [getD_setIfInBounds hsize] at hflag
        split at hflag
        · next heq =>
            subst heq
            exact Body.watchOver_mono hscan hover (hentry ∘ hkept block)
              (Option.some.inj hflag)
        · exact hsound.lasting hflag (hentry ∘ hkept block) hscan

theorem sound_start (hblock : body.blockOf definition < body.blocks.size)
    (hover : body.watchOver program watch (body.after definition) false =
      .ok (some escaped)) :
    Sound body program watch definition (start body definition escaped) := by
  have hflag : ∀ {block flag},
      (start body definition escaped).flags.getD block none = some flag →
        block = body.blockOf definition ∧ flag = escaped := by
    intro block flag hflag
    rw [start, getD_setIfInBounds (by simpa using hblock)] at hflag
    split at hflag
    · next heq => exact ⟨heq, (Option.some.inj hflag).symm⟩
    · rw [Array.getD_eq_getD_getElem?, Array.getElem?_replicate] at hflag
      split at hflag <;> cases hflag
  refine ⟨by simp [start], ?_, ?_, ?_⟩
  · intro block flag hset
    obtain ⟨rfl, rfl⟩ := hflag hset
    exact ⟨_, .start, hover⟩
  · intro block hnext
    refine ⟨_, escaped, Body.mem_graph_next.mp hnext, ?_⟩
    simp [start, hblock]
  · intro block hset entry after _ hscan
    obtain ⟨rfl, rfl⟩ := hflag hset
    exact Body.le_of_watchOver_block hover hscan rfl

/-- How many times a flag can still change. -/
def room : Option Bool → Nat
  | none => 2
  | some false => 1
  | some true => 0

/-- The steps that the scan can still make. -/
def pending (body : Body) (state : Watching) : Nat :=
  body.graph.outstanding state.queue fun block =>
    room (state.flags.getD block none)

theorem Sound.pending_lt (hsound : Sound body program watch definition state)
    (hstep : Step body program watch state next) :
    pending body next < pending body state := by
  cases hstep with
  | skip => exact Graph.outstanding_skip
  | @enter queue flags block after hblock hover hnew =>
      have hsize : block < flags.size := by
        rw [hsound.size_eq]
        exact hblock
      apply Graph.outstanding_enter (by rwa [Body.size_graph])
      · intro other hother
        rw [getD_setIfInBounds hsize, if_neg hother]
      · rw [getD_setIfInBounds hsize, if_pos rfl]
        cases hflag : flags.getD block none with
        | none => cases after <;> decide
        | some escaped =>
            cases escaped with
            | false =>
                cases after with
                | false => exact absurd hflag hnew
                | true => decide
            | true =>
                -- a flag that is set would have stayed
                rw [hsound.lasting hflag id hover] at hnew
                exact absurd hflag hnew

theorem pending_start_le (body : Body) (definition : InstrId)
    (escaped : Bool) :
    pending body (start body definition escaped) ≤ 3 * body.graph.edges := by
  have hroom : ∀ flag, room flag ≤ 2
    | none | some false | some true => by decide
  have hle : pending body (start body definition escaped) ≤ _ :=
    Graph.outstanding_le fun _ => hroom _
  have hnext := body.graph.length_next_le (body.blockOf definition)
  simp only [start] at hle ⊢
  omega

/-- The scan has no endless run. -/
theorem Sound.acc (hsound : Sound body program watch definition state) :
    Acc (Function.swap (Step body program watch)) state :=
  acc_of_decreasing
    (fun hsound hstep => ⟨hsound.step hstep, hsound.pending_lt hstep⟩) hsound

/-- With enough steps, the scan comes to its answer. -/
theorem Sound.exists_run (hsound : Sound body program watch definition state)
    (hsteps : pending body state < steps)
    (hblocks : body.watchBlocks program body.graph watch steps state.queue
      state.flags = .ok answer) :
    ∃ final, ReflTransGen (Step body program watch) state final ∧
      Decided body program watch final answer := by
  obtain ⟨queue, flags⟩ := state
  induction steps generalizing queue flags with
  | zero => exact absurd hsteps (Nat.not_lt_zero _)
  | succ steps ih =>
      cases queue with
      | nil =>
          obtain rfl := Except.ok.inj hblocks
          exact ⟨_, .refl, .unmodified⟩
      | cons block queue =>
          rcases step_or_modified hblocks with
            ⟨⟨queue, flags⟩, hstep, hrest⟩ | hdecided
          · have hless := hsound.pending_lt hstep
            obtain ⟨final, hrun, hdecided⟩ :=
              ih queue flags (hsound.step hstep) (by omega) hrest
            exact ⟨final, .head hstep hrun, hdecided⟩
          · exact ⟨_, .refl, hdecided⟩

theorem Sound.run (hsound : Sound body program watch definition state)
    (hrun : ReflTransGen (Step body program watch) state next) :
    Sound body program watch definition next := by
  induction hrun with
  | refl => exact hsound
  | tail _ hstep ih => exact ih.step hstep

/-- The steps that a scan of blocks is given are enough. -/
theorem exists_run (hblock : body.blockOf definition < body.blocks.size)
    (hover : body.watchOver program watch (body.after definition) false =
      .ok (some escaped))
    (hblocks : body.watchBlocks program body.graph watch
      (3 * body.graph.edges + 2) (start body definition escaped).queue
      (start body definition escaped).flags = .ok answer) :
    ∃ final, ReflTransGen (Step body program watch)
      (start body definition escaped) final ∧
        Decided body program watch final answer := by
  apply (sound_start hblock hover).exists_run _ hblocks
  have hle := pending_start_le body definition escaped
  omega

/-- What the scan takes for a modification lies on some way. -/
theorem Sound.modifiedOnWay
    (hsound : Sound body program watch definition state)
    (hdecided : Decided body program watch state true) :
    body.ModifiedOnWay program watch definition := by
  cases hdecided with
  | modified hover =>
      obtain ⟨source, hedge, hleft⟩ := hsound.exists_entry List.mem_cons_self
      exact hleft.modified hedge hover

end Watching

namespace Body

variable {body : Body} {program : Program} {consumed : List InstrId}
variable {value : ValueId} {definition : InstrId} {running : MethodDecl}
variable {answer : Bool}

/-- A value that is not merged with others is watched from its definition on. -/
theorem mayBeModified_eq (hbody : body.Indexed)
    (hdefinition : body.definition? value = some definition)
    (hphis : ∀ name, body.Names value name → body.phiUsers name = [])
    (hrunning : program.method body.method = .ok running) :
    body.mayBeModified program consumed value = (do
      match ← body.watchOver program (body.watchOf consumed value running)
          (body.after definition) false with
      | none => return true
      | some escaped =>
          body.watchBlocks program body.graph
            (body.watchOf consumed value running) (3 * body.graph.edges + 2)
            (Watching.start body definition escaped).queue
            (Watching.start body definition escaped).flags) := by
  have hfree : ¬ ((body.aliases value).any fun name =>
      !(body.phiUsers name).isEmpty) = true := by
    intro hany
    obtain ⟨name, hname, hphi⟩ := List.any_eq_true.mp hany
    rw [hphis name (names_of_mem_aliases hbody hname)] at hphi
    cases hphi
  rw [mayBeModified, hdefinition]
  dsimp only
  rw [if_neg hfree, hrunning]
  rfl

/-- The answer tells whether some way modifies the object. -/
theorem mayBeModified_iff_modifiedOnWay (hbody : body.WellFormed)
    (hindexed : body.Indexed)
    (hdefinition : body.definition? value = some definition)
    (hphis : ∀ name, body.Names value name → body.phiUsers name = [])
    (hrunning : program.method body.method = .ok running)
    (hanswer : body.mayBeModified program consumed value = .ok answer) :
    answer = true ↔ body.ModifiedOnWay program
      (body.watchOf consumed value running) definition := by
  rw [mayBeModified_eq hindexed hdefinition hphis hrunning] at hanswer
  obtain ⟨watched, hover, hrest⟩ := exists_of_bind hanswer
  have hblock := hbody.blockOf_lt definition
  cases watched with
  | none =>
      obtain rfl := Except.ok.inj hrest
      exact iff_of_true rfl ⟨_, _, .start, hover⟩
  | some escaped =>
      dsimp only at hrest
      cases answer with
      | true =>
          have hsound := Watching.sound_start hblock hover
          obtain ⟨final, hrun, hdecided⟩ := Watching.exists_run hblock hover hrest
          exact iff_of_true rfl ((hsound.run hrun).modifiedOnWay hdecided)
      | false =>
          refine iff_of_false nofun ?_
          rintro ⟨block, trace, hfollows, hnone⟩
          obtain ⟨flags, hpassed, hstart⟩ := exists_passedOn_of_watchBlocks
            (P := fun flag => escaped = true → flag = true)
            (le_of_watchOver_block hover) (by simp)
            (passedOn_start hblock escaped)
            ⟨escaped, by simp [hblock], id⟩ hrest
          exact (hfollows.covered hover hpassed hstart).1 hnone

/-- An object that is not merged with others may be modified if and only if
some way from its definition modifies it.  Finding this out comes to an end if
the copies and the superclasses that are followed do. -/
theorem mayBeModified_iff_on_some_way (haccepted : body.Accepted)
    (program : Program) (consumed : List InstrId)
    (hdefinition : body.definition? value = some definition)
    (hphis : ∀ name, body.Names value name → body.phiUsers name = []) :
    (∀ running, program.method body.method = .ok running →
      ∀ answer, body.mayBeModified program consumed value = .ok answer →
        (answer = true ↔ ∃ block trace, body.Follows definition block trace ∧
          body.watchOver program (body.watchOf consumed value running) trace
            false = .ok none)) ∧
    (body.CopiesEnd → program.HasRoots → program.Covers body →
      Answers (body.mayBeModified program consumed value) ∧
        ∀ other, body.Resolves other (body.root other)) ∧
    (∀ name, name ∈ body.aliases value ↔ body.Names value name) ∧
    ∀ running, program.method body.method = .ok running →
      ∀ escaped, body.watchOver program (body.watchOf consumed value running)
          (body.after definition) false = .ok (some escaped) →
        Acc (Function.swap (Watching.Step body program
          (body.watchOf consumed value running)))
            (Watching.start body definition escaped) ∧
        ∀ answer, body.mayBeModified program consumed value = .ok answer →
          ∃ final, ReflTransGen (Watching.Step body program
              (body.watchOf consumed value running))
              (Watching.start body definition escaped) final ∧
            Watching.Decided body program
              (body.watchOf consumed value running) final answer := by
  have hbody := haccepted.wellFormed
  have hindexed := haccepted.indexed.1
  have hblock := hbody.blockOf_lt definition
  refine ⟨?_, ?_, ?_, ?_⟩
  · intro running hrunning answer hanswer
    exact mayBeModified_iff_modifiedOnWay hbody hindexed hdefinition hphis
      hrunning hanswer
  · intro hends hroots hcovers
    exact ⟨mayBeModified_answers hbody hcovers hroots consumed value,
      hends.resolves⟩
  · intro name
    refine ⟨names_of_mem_aliases hindexed, fun hname => ?_⟩
    exact hname.mem_aliases haccepted (lt_size_of_definition? hdefinition)
  · intro running hrunning escaped hover
    refine ⟨(Watching.sound_start hblock hover).acc, ?_⟩
    intro answer hanswer
    rw [mayBeModified_eq hindexed hdefinition hphis hrunning, hover] at hanswer
    exact Watching.exists_run hblock hover hanswer

/-- A loop calls a method in its head and stores a new array into the field in
the rest. -/
def publishInLoop : Body where
  method := 0
  isStatic := true
  values := #[
    { type := .primitive .int, definition := .instruction 0, users := [1, 4] },
    { type := .reference (.array 1) .nonNull, definition := .instruction 1
      users := [5] }]
  instructions := #[⟨0, .number 1, some 0⟩, ⟨0, .newArray 1 0, some 1⟩,
    ⟨0, .goto 1, none⟩, ⟨1, .call .static 1 [], none⟩,
    ⟨1, .branch .eq 0 none 2 3, none⟩, ⟨2, .staticPut 0 1, none⟩,
    ⟨2, .goto 1, none⟩, ⟨3, .ret none, none⟩]
  blocks := #[⟨[0, 1, 2], [], []⟩, ⟨[3, 4], [], []⟩, ⟨[5, 6], [], []⟩,
    ⟨[7], [], []⟩]
  positions := #[0, 1, 2, 0, 1, 0, 1, 0]
  incoming := #[[], [0, 2], [1], [1]]

theorem publishInLoop_accepted : publishInLoop.Accepted :=
  ⟨0, true,
    [.block, .block, .block, .block, .value 0 (.number 1) (.primitive .int),
      .value 0 (.newArray 1 0) (.reference (.array 1) .nonNull),
      .push 0 (.goto 1), .push 1 (.call .static 1 []),
      .push 1 (.branch .eq 0 none 2 3), .push 2 (.staticPut 0 1),
      .push 2 (.goto 1), .push 3 (.ret none)],
    _, _, rfl, by decide +kernel⟩

/-- The call in the head of the loop comes after the store of an earlier
round.  If the call took part in making the array, no way modifies it. -/
theorem publishInLoop_mayBeModified :
    publishInLoop.Accepted ∧ publishInLoop.CopiesEnd ∧ publisher.HasRoots ∧
    publisher.Covers publishInLoop ∧
    ∃ running, publisher.method publishInLoop.method = .ok running ∧
      (∃ block trace, publishInLoop.Follows 1 block trace ∧
        publishInLoop.watchOver publisher
          (publishInLoop.watchOf [] 1 running) trace false = .ok none) ∧
      (¬ ∃ block trace, publishInLoop.Follows 1 block trace ∧
        publishInLoop.watchOver publisher
          (publishInLoop.watchOf [3] 1 running) trace false = .ok none) ∧
      Answers (publishInLoop.mayBeModified publisher [] 1) ∧
      (∀ name, name ∈ publishInLoop.aliases 1 ↔ publishInLoop.Names 1 name) ∧
      Acc (Function.swap (Watching.Step publishInLoop publisher
        (publishInLoop.watchOf [] 1 running)))
          (Watching.start publishInLoop 1 false) ∧
      ∃ final, ReflTransGen (Watching.Step publishInLoop publisher
          (publishInLoop.watchOf [] 1 running))
          (Watching.start publishInLoop 1 false) final ∧
        Watching.Decided publishInLoop publisher
          (publishInLoop.watchOf [] 1 running) final true := by
  have hcovers : publisher.Covers publishInLoop :=
    publisher_covers (by decide) (by decide)
  have hphis : ∀ name, publishInLoop.Names 1 name →
      publishInLoop.phiUsers name = [] := by
    intro name hname
    have hmem := hname.mem_aliases publishInLoop_accepted (by decide)
    obtain rfl := List.mem_singleton.mp hmem
    rfl
  have hway := fun consumed => mayBeModified_iff_on_some_way
    publishInLoop_accepted publisher consumed rfl hphis
  obtain ⟨hexact, hanswers, hnames, hends⟩ := hway []
  obtain ⟨hacc, hrun⟩ := hends _ rfl false rfl
  have hcopies : publishInLoop.CopiesEnd := copiesEnd_of_root (by decide)
  refine ⟨publishInLoop_accepted, hcopies, publisher_hasRoots, hcovers, _, rfl,
    ?_, ?_, (hanswers hcopies publisher_hasRoots hcovers).1, hnames, hacc,
    hrun true (by decide +kernel)⟩
  · exact (hexact _ rfl true (by decide +kernel)).mp rfl
  · intro hmodified
    exact absurd (((hway [3]).1 _ rfl false (by decide +kernel)).mpr hmodified)
      Bool.false_ne_true

/-- A new array is stored into the field of a class that is its own
superclass. -/
def storeAway : Body where
  method := 0
  isStatic := true
  values := #[
    { type := .primitive .int, definition := .instruction 0, users := [1] },
    { type := .reference (.array 2) .nonNull, definition := .instruction 1
      users := [2] }]
  instructions := #[⟨0, .number 1, some 0⟩, ⟨0, .newArray 2 0, some 1⟩,
    ⟨0, .staticPut 0 1, none⟩, ⟨0, .ret none, none⟩]
  blocks := #[⟨[0, 1, 2, 3], [], []⟩]
  positions := #[0, 1, 2, 3]
  incoming := #[[]]

/-- The store is met on the only way, and whether it starts something is never
found out. -/
theorem storeAway_mayBeModified_endless :
    storeAway.Accepted ∧ storeAway.CopiesEnd ∧
      Program.circularClass.Covers storeAway ∧
      (∀ name, storeAway.Names 1 name → storeAway.phiUsers name = []) ∧
      storeAway.mayBeModified .circularClass [] 1 = .error .endless ∧
      ∀ found, ¬ Program.circularClass.Ascends
        Program.circularClass.startsObservably 0 found := by
  have haccepted : storeAway.Accepted :=
    ⟨0, true,
      [.block, .value 0 (.number 1) (.primitive .int),
        .value 0 (.newArray 2 0) (.reference (.array 2) .nonNull),
        .push 0 (.staticPut 0 1), .push 0 (.ret none)],
      _, _, rfl, by decide +kernel⟩
  refine ⟨haccepted, copiesEnd_of_root (by decide),
    Program.circularClass_covers rfl (by decide), ?_, rfl,
    Program.circularClass_not_ascends⟩
  intro name hname
  obtain rfl := List.mem_singleton.mp (hname.mem_aliases haccepted (by decide))
  rfl

end Body

end FlowFacts
