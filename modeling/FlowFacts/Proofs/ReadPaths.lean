/-
The worklist of field reads, step by step and without a limit.  It hands what
is read on to the successors of blocks until no set changes, and then a set
holds what is read on some path from the entry through the block.  Every step
uses up room that the sets have to grow, so the worklist runs empty.
-/
import Mathlib.Logic.Relation
import FlowFacts.Proofs.Edits
import FlowFacts.Proofs.FieldReads
import FlowFacts.Proofs.Worklists

namespace FlowFacts

open Relation

namespace Body

variable {body : Body} {program : Program} {source target : BlockId}
variable {instr : InstrId} {field : FieldId}

/-- The instructions that a path executes before it comes to an instruction of
its last block. -/
def passedBefore (body : Body) (path : List BlockId) (instr : InstrId) :
    List InstrId :=
  path.dropLast.flatMap body.instructionsOf ++ body.before instr

/-- Some path from the entry to the end of a block may read the field. -/
def ReadOnWay (body : Body) (program : Program) (block : BlockId)
    (field : FieldId) : Prop :=
  ∃ path, body.graph.Path Body.entry path block ∧
    ∃ earlier ∈ path.flatMap body.instructionsOf,
      body.MayRead program earlier field

theorem ReadOnWay.append_edge (hread : body.ReadOnWay program source field)
    (hedge : target ∈ body.graph.next source) :
    body.ReadOnWay program target field := by
  obtain ⟨path, hpath, earlier, hearlier, hfield⟩ := hread
  refine ⟨path ++ [target], hpath.append_edge hedge, earlier, ?_, hfield⟩
  rw [List.flatMap_append]
  exact List.mem_append_left _ hearlier

theorem readOnWay_of_mem (hreach : body.graph.Reaches Body.entry target)
    (hinstr : instr ∈ body.instructionsOf target)
    (hfield : body.MayRead program instr field) :
    body.ReadOnWay program target field := by
  obtain ⟨path, hpath⟩ := hreach
  refine ⟨path, hpath, instr, ?_, hfield⟩
  exact List.mem_flatMap.mpr ⟨target, hpath.last_mem, hinstr⟩

end Body

/-- Where the worklist stands: what has been found, and the blocks in line. -/
structure Spreading extends ReadState where
  queue : List BlockId
deriving DecidableEq, Repr

namespace Spreading

variable {body : Body} {program : Program} {state next : Spreading}
variable {reads last : ReadState} {block : BlockId} {content : Block}
variable {queue : List BlockId} {set : FieldSet} {field : FieldId} {steps : Nat}

/-- The worklist skips a block whose set stays as it is, or enters the block
with a new set and puts its successors in line. -/
inductive Step (body : Body) (program : Program) : Spreading → Spreading → Prop
  | skip {reads : ReadState} {block : BlockId} {queue : List BlockId}
      {content : Block} (hcontent : body.block block = .ok content)
      (hentered : block ∈ reads.entered)
      (hsame : body.readsUpTo program body.graph reads block content =
        .ok (reads.found block)) :
      Step body program ⟨reads, block :: queue⟩ ⟨reads, queue⟩
  | enter {reads : ReadState} {block : BlockId} {queue : List BlockId}
      {content : Block} {set : FieldSet}
      (hcontent : body.block block = .ok content)
      (hset : body.readsUpTo program body.graph reads block content = .ok set)
      (hnew : block ∈ reads.entered → set ≠ reads.found block) :
      Step body program ⟨reads, block :: queue⟩
        ⟨reads.store block set, queue ++ body.graph.next block⟩

def start (body : Body) : Spreading where
  sets := Array.replicate body.blocks.size .empty
  queue := [Body.entry]

theorem Step.spreadReads_eq (hstep : Step body program state next)
    (steps : Nat) :
    body.spreadReads program body.graph (steps + 1) state.queue
        state.toReadState =
      body.spreadReads program body.graph steps next.queue
        next.toReadState := by
  cases hstep with
  | @skip reads block queue content hcontent hentered hsame =>
      have hcontains := List.contains_iff_mem.mpr hentered
      simp only [Body.spreadReads, hcontent, hsame, hcontains, Bool.true_and,
        bind, Except.bind, ReadState.found, beq_self_eq_true, if_true, ite_self]
  | @enter reads block queue content set hcontent hset hnew =>
      have hopen : ¬ ((reads.entered.contains block &&
          (reads.found block).isAny) = true) := by
        intro hsettled
        obtain ⟨hentered, hany⟩ := Bool.and_eq_true_iff.mp hsettled
        apply hnew (List.contains_iff_mem.mp hentered)
        rw [Body.readsUpTo_of_isAny hany] at hset
        exact (Except.ok.inj hset).symm
      have hchanged : ¬ ((reads.entered.contains block &&
          set == reads.found block) = true) := by
        intro hsame
        obtain ⟨hentered, heq⟩ := Bool.and_eq_true_iff.mp hsame
        exact hnew (List.contains_iff_mem.mp hentered) (eq_of_beq heq)
      simp only [ReadState.found] at hopen hchanged
      simp only [Body.spreadReads, hcontent, hset, bind, Except.bind, hopen,
        hchanged]
      rfl

theorem exists_step (hcontent : body.block block = .ok content)
    (hanswers : Answers
      (body.readsUpTo program body.graph reads block content)) :
    ∃ next, Step body program ⟨reads, block :: queue⟩ next := by
  obtain ⟨set, hset⟩ := hanswers
  by_cases hskip : block ∈ reads.entered ∧ set = reads.found block
  · obtain ⟨hentered, rfl⟩ := hskip
    exact ⟨_, .skip hcontent hentered hset⟩
  · exact ⟨_, .enter hcontent hset
      fun hentered heq => hskip ⟨hentered, heq⟩⟩

theorem exists_step_of_spreadReads
    (hspread : body.spreadReads program body.graph (steps + 1)
      (block :: queue) reads = .ok last) :
    ∃ next, Step body program ⟨reads, block :: queue⟩ next := by
  obtain ⟨content, hcontent, hrest⟩ := exists_of_bind hspread
  apply exists_step hcontent
  dsimp only at hrest
  split at hrest
  · next hsettled =>
      rw [Body.readsUpTo_of_isAny (Bool.and_eq_true_iff.mp hsettled).2]
      exact .ok _
  · obtain ⟨set, hset, _⟩ := exists_of_bind hrest
    exact ⟨set, hset⟩

/-- What has been found is read on the way, and the blocks in line can be
reached. -/
structure Sound (body : Body) (program : Program) (state : Spreading) :
    Prop where
  size_eq : state.sets.size = body.blocks.size
  within : ∀ block, (state.found block).Within (body.readFields program)
  queued : ∀ block ∈ state.queue, body.graph.Reaches Body.entry block
  read : ∀ {block field}, (state.found block).contains field = true →
    body.ReadOnWay program block field

/-- What a block has found has been handed on to all successors, as far as
these are not in line. -/
structure HandedOn (body : Body) (program : Program) (state : Spreading) :
    Prop where
  entry : Body.entry ∈ state.queue ∨ Body.entry ∈ state.entered
  own : ∀ {block instr field}, block ∈ state.entered →
    instr ∈ body.instructionsOf block → body.MayRead program instr field →
      (state.found block).contains field = true
  onward : ∀ {source target}, source ∈ state.entered →
    target ∈ body.graph.next source → target ∈ state.queue ∨
      (target ∈ state.entered ∧ ∀ field,
        (state.found source).contains field = true →
          (state.found target).contains field = true)

theorem found_start (body : Body) (block : BlockId) :
    (start body).found block = .empty := by
  rw [ReadState.found, start, Array.getD_eq_getD_getElem?,
    Array.getElem?_replicate]
  split <;> rfl

theorem sound_start (body : Body) (program : Program) :
    Sound body program (start body) where
  size_eq := Array.size_replicate
  within := by
    intro block
    rw [found_start]
    trivial
  queued := by
    intro block hblock
    obtain rfl := List.mem_singleton.mp hblock
    exact .refl _ _
  read := by
    intro block field hread
    rw [found_start] at hread
    cases hread

theorem handedOn_start (body : Body) (program : Program) :
    HandedOn body program (start body) where
  entry := Or.inl (List.mem_singleton_self _)
  own := by
    intro block instr field hentered
    cases hentered
  onward := by
    intro source target hentered
    cases hentered

theorem Sound.lt_size (hsound : Sound body program ⟨reads, queue⟩)
    (hcontent : body.block block = .ok content) : block < reads.sets.size := by
  rw [hsound.size_eq]
  exact Body.lt_size_of_block hcontent

/-- No step takes anything out of a set. -/
theorem Sound.grows (hsound : Sound body program state)
    (hstep : Step body program state next) (block : BlockId) :
    FieldSet.Grows (body.readFields program) (state.found block)
      (next.found block) := by
  cases hstep with
  | skip => exact .refl (hsound.within block)
  | @enter reads entered queue content set hcontent hset hnew =>
      rw [ReadState.found_store (hsound.lt_size hcontent)]
      split
      · next heq =>
          subst heq
          exact Body.grows_readsUpTo hsound.within hset
      · exact .refl (hsound.within block)

theorem Sound.step (hsound : Sound body program state)
    (hstep : Step body program state next) : Sound body program next := by
  have hwithin := fun block => (hsound.grows hstep block).within
  cases hstep with
  | skip =>
      refine ⟨hsound.size_eq, hwithin, ?_, hsound.read⟩
      intro block hblock
      exact hsound.queued block (List.mem_cons_of_mem _ hblock)
  | @enter reads entered queue content set hcontent hset hnew =>
      have hreach := hsound.queued entered List.mem_cons_self
      refine ⟨?_, hwithin, ?_, ?_⟩
      · exact Array.size_setIfInBounds.trans hsound.size_eq
      · intro block hblock
        rcases List.mem_append.mp hblock with hblock | hedge
        · exact hsound.queued block (List.mem_cons_of_mem _ hblock)
        · exact hreach.append_edge hedge
      · intro block field hread
        rw [ReadState.found_store (hsound.lt_size hcontent)] at hread
        split at hread
        · next heq =>
            subst heq
            rcases (Body.contains_readsUpTo hset).mp hread with
              hold | ⟨source, hedge, hsource⟩ | ⟨_, instr, hinstr, hfield⟩
            · exact hsound.read hold
            · exact (hsound.read hsource).append_edge hedge
            · apply Body.readOnWay_of_mem hreach _ hfield
              rwa [Body.instructionsOf_eq (Body.block_eq_ok.mp hcontent)]
        · exact hsound.read hread

theorem HandedOn.skip (hhanded : HandedOn body program ⟨reads, block :: queue⟩)
    (hentered : block ∈ reads.entered)
    (hsame : body.readsUpTo program body.graph reads block content =
      .ok (reads.found block)) : HandedOn body program ⟨reads, queue⟩ where
  entry := by
    rcases hhanded.entry with hqueued | hentry
    · rcases List.mem_cons.mp hqueued with heq | hqueued
      · exact Or.inr (heq ▸ hentered)
      · exact Or.inl hqueued
    · exact Or.inr hentry
  own := hhanded.own
  onward := by
    intro source target hsource hedge
    rcases hhanded.onward hsource hedge with hqueued | hdone
    · rcases List.mem_cons.mp hqueued with rfl | hqueued
      · exact Or.inr ⟨hentered, fun _ => Body.contains_of_edge hsame hedge⟩
      · exact Or.inl hqueued
    · exact Or.inr hdone

theorem HandedOn.enter (hhanded : HandedOn body program ⟨reads, block :: queue⟩)
    (hblock : block < reads.sets.size)
    (hcontent : body.block block = .ok content)
    (hset : body.readsUpTo program body.graph reads block content = .ok set) :
    HandedOn body program
      ⟨reads.store block set, queue ++ body.graph.next block⟩ where
  entry := by
    rcases hhanded.entry with hqueued | hentry
    · rcases List.mem_cons.mp hqueued with heq | hqueued
      · exact Or.inr (heq ▸ List.mem_cons_self)
      · exact Or.inl (List.mem_append_left _ hqueued)
    · exact Or.inr (List.mem_cons_of_mem _ hentry)
  own := by
    intro entered instr field hentered hinstr hfield
    rw [ReadState.found_store hblock]
    split
    · next heq =>
        subst heq
        apply (Body.contains_readsUpTo hset).mpr
        by_cases hold : entered ∈ reads.entered
        · exact Or.inl (hhanded.own hold hinstr hfield)
        · rw [Body.instructionsOf_eq (Body.block_eq_ok.mp hcontent)] at hinstr
          exact Or.inr (Or.inr ⟨hold, instr, hinstr, hfield⟩)
    · next hne =>
        apply hhanded.own _ hinstr hfield
        exact List.mem_of_ne_of_mem hne hentered
  onward := by
    intro source target hsource hedge
    by_cases hself : source = block
    · subst hself
      exact Or.inl (List.mem_append_right _ hedge)
    · have hold := List.mem_of_ne_of_mem hself hsource
      rw [ReadState.found_store hblock, ReadState.found_store hblock,
        if_neg hself]
      by_cases htarget : target = block
      · -- the set of the block now holds what its predecessors have found
        subst htarget
        rw [if_pos rfl]
        exact Or.inr ⟨List.mem_cons_self,
          fun _ => Body.contains_of_edge hset hedge⟩
      · rw [if_neg htarget]
        rcases hhanded.onward hold hedge with hqueued | ⟨hentered, hpart⟩
        · apply Or.inl
          exact List.mem_append_left _ (List.mem_of_ne_of_mem htarget hqueued)
        · exact Or.inr ⟨List.mem_cons_of_mem _ hentered, hpart⟩

theorem HandedOn.step (hsound : Sound body program state)
    (hhanded : HandedOn body program state)
    (hstep : Step body program state next) : HandedOn body program next := by
  cases hstep with
  | skip _ hentered hsame => exact hhanded.skip hentered hsame
  | enter hcontent hset _ =>
      exact hhanded.enter (hsound.lt_size hcontent) hcontent hset

theorem run_invariants
    (hrun : ReflTransGen (Step body program) (start body) state) :
    Sound body program state ∧ HandedOn body program state := by
  induction hrun with
  | refl => exact ⟨sound_start body program, handedOn_start body program⟩
  | tail _ hstep ih => exact ⟨ih.1.step hstep, ih.2.step ih.1 hstep⟩

/-- How often a block can still be entered, if at most `bound` fields can be
read one by one. -/
def room (bound : Nat) (reads : ReadState) (block : BlockId) : Nat :=
  if block ∈ reads.entered then bound + 2 - (reads.found block).height bound
  else bound + 3

/-- The steps that the worklist can still make: every time a block is entered,
its successors get in line. -/
def pending (body : Body) (program : Program) (state : Spreading) : Nat :=
  state.queue.length +
    ∑ block ∈ Finset.range body.graph.size, (body.graph.next block).length *
      room (body.readFields program).length state.toReadState block

theorem room_store_lt {known : List FieldId} (hblock : block < reads.sets.size)
    (hgrows : FieldSet.Grows known (reads.found block) set)
    (hnew : block ∈ reads.entered → set ≠ reads.found block) :
    room known.length (reads.store block set) block <
      room known.length reads block := by
  have hle := hgrows.within.height_le
  have hentered : block ∈ (reads.store block set).entered := List.mem_cons_self
  rw [room, if_pos hentered, ReadState.found_store hblock, if_pos rfl, room]
  split
  · next hold =>
      rcases hgrows.higher with heq | hlt
      · exact absurd heq (hnew hold)
      · omega
  · omega

theorem room_store_ne {bound : Nat} {other : BlockId}
    (hblock : block < reads.sets.size) (hother : other ≠ block)
    (set : FieldSet) :
    room bound (reads.store block set) other = room bound reads other := by
  rw [room, room, ReadState.found_store hblock, if_neg hother]
  simp [ReadState.store, hother]

theorem Sound.pending_lt (hsound : Sound body program state)
    (hstep : Step body program state next) :
    pending body program next < pending body program state := by
  cases hstep with
  | skip => exact Graph.outstanding_skip
  | @enter reads block queue content set hcontent hset hnew =>
      have hblock := hsound.lt_size hcontent
      have hnode : block < body.graph.size := by
        rw [Body.size_graph]
        exact Body.lt_size_of_block hcontent
      exact Graph.outstanding_enter hnode
        (fun other hother => room_store_ne hblock hother set)
        (room_store_lt hblock (Body.grows_readsUpTo hsound.within hset) hnew)

theorem pending_start_le (body : Body) (program : Program) :
    pending body program (start body) ≤
      1 + body.graph.edges * ((body.readFields program).length + 3) :=
  Graph.outstanding_le fun _ => Nat.le_refl _

/-- The worklist has no endless run. -/
theorem Sound.acc (hsound : Sound body program state) :
    Acc (Function.swap (Step body program)) state :=
  acc_of_decreasing
    (fun hsound hstep => ⟨hsound.step hstep, hsound.pending_lt hstep⟩) hsound

/-- With enough steps the worklist runs empty. -/
theorem Sound.run_of_spreadReads (hsound : Sound body program state)
    (hsteps : pending body program state ≤ steps)
    (hspread : body.spreadReads program body.graph steps state.queue
      state.toReadState = .ok last) :
    ReflTransGen (Step body program) state ⟨last, []⟩ := by
  obtain ⟨reads, queue⟩ := state
  induction steps generalizing reads queue with
  | zero =>
      have hqueue : queue = [] := by
        apply List.eq_nil_of_length_eq_zero
        simp only [pending] at hsteps
        omega
      obtain rfl := Except.ok.inj hspread
      rw [hqueue]
  | succ steps ih =>
      cases queue with
      | nil =>
          obtain rfl := Except.ok.inj hspread
          exact .refl
      | cons block queue =>
          obtain ⟨⟨reads, queue⟩, hstep⟩ := exists_step_of_spreadReads hspread
          have hless := hsound.pending_lt hstep
          rw [hstep.spreadReads_eq] at hspread
          apply ReflTransGen.head hstep
          exact ih reads queue (hsound.step hstep) (by omega) hspread

theorem Sound.spreadReads_answers (hbody : body.WellFormed)
    (hreads : ∀ block, body.graph.Reaches Body.entry block →
      ∀ instr ∈ body.instructionsOf block, Answers (body.reads program instr))
    (hsound : Sound body program state) (steps : Nat) :
    Answers (body.spreadReads program body.graph steps state.queue
      state.toReadState) := by
  obtain ⟨reads, queue⟩ := state
  induction steps generalizing reads queue with
  | zero => exact .ok _
  | succ steps ih =>
      cases queue with
      | nil => exact .ok _
      | cons block queue =>
          have hreach := hsound.queued block List.mem_cons_self
          have hlt := hreach.lt_size hbody.graph_closed
          rw [Body.size_graph] at hlt
          obtain ⟨content, hcontent⟩ := Body.exists_content hlt
          obtain ⟨next, hstep⟩ : ∃ next,
              Step body program ⟨reads, block :: queue⟩ next :=
            exists_step (Body.block_eq_ok.mpr hcontent)
              (Body.readsUpTo_answers hcontent (hreads block hreach))
          rw [hstep.spreadReads_eq]
          exact ih _ _ (hsound.step hstep)

/-- When no block is in line any more, a set holds exactly what is read on the
way. -/
theorem contains_found_iff
    (hrun : ReflTransGen (Step body program) (start body) ⟨last, []⟩) :
    (last.found block).contains field = true ↔
      body.ReadOnWay program block field := by
  obtain ⟨hsound, hhanded⟩ := run_invariants hrun
  have honward : ∀ {source target}, source ∈ last.entered →
      target ∈ body.graph.next source → target ∈ last.entered ∧
        ∀ field, (last.found source).contains field = true →
          (last.found target).contains field = true := by
    intro source target hsource hedge
    exact (hhanded.onward hsource hedge).resolve_left List.not_mem_nil
  constructor
  · exact hsound.read
  · rintro ⟨path, hpath, earlier, hearlier, hfield⟩
    obtain ⟨node, hnode, hinstr⟩ := List.mem_flatMap.mp hearlier
    have hentry := hhanded.entry.resolve_left List.not_mem_nil
    obtain ⟨before, hbefore, _⟩ := hpath.to_member hnode
    have hentered : node ∈ last.entered :=
      hbefore.induct (P := (· ∈ last.entered))
        (fun _ _ hsource hedge => (honward hsource hedge).1) hentry
    obtain ⟨after, hafter, _⟩ := hpath.from_member hnode
    have hlast := hafter.induct
      (P := fun node => node ∈ last.entered ∧
        (last.found node).contains field = true)
      (fun _ _ hsource hedge => ⟨(honward hsource.1 hedge).1,
        (honward hsource.1 hedge).2 field hsource.2⟩)
      ⟨hentered, hhanded.own hentered hinstr hfield⟩
    exact hlast.2

end Spreading

namespace Body

variable {body : Body} {program : Program} {block : BlockId} {instr : InstrId}
variable {field : FieldId} {answer : Bool} {sets : Array FieldSet}

theorem exists_run_of_readsThroughBlocks
    (hsets : body.readsThroughBlocks program = .ok sets) :
    ∃ last : ReadState, last.sets = sets ∧
      ReflTransGen (Spreading.Step body program) (Spreading.start body)
        ⟨last, []⟩ := by
  obtain ⟨last, hlast, hrest⟩ := exists_of_bind hsets
  refine ⟨last, Except.ok.inj hrest, ?_⟩
  apply (Spreading.sound_start body program).run_of_spreadReads _ hlast
  have hstart := Spreading.pending_start_le body program
  have hle := Nat.mul_le_mul_left body.graph.edges
    (Nat.add_le_add_right (body.length_readFields_le program) 3)
  omega

theorem contains_readsThroughBlocks
    (hsets : body.readsThroughBlocks program = .ok sets) :
    (sets.getD block .empty).contains field = true ↔
      body.ReadOnWay program block field := by
  obtain ⟨last, rfl, hrun⟩ := exists_run_of_readsThroughBlocks hsets
  exact Spreading.contains_found_iff hrun

theorem readsThroughBlocks_answers (hbody : body.WellFormed)
    (hreads : ∀ block, body.graph.Reaches Body.entry block →
      ∀ instr ∈ body.instructionsOf block,
        Answers (body.reads program instr)) :
    Answers (body.readsThroughBlocks program) :=
  .bind ((Spreading.sound_start body program).spreadReads_answers hbody
    hreads _) fun _ _ => .pure _

/-- A path that reads the field before it arrives comes through a predecessor
with it, or reads it in the block of the instruction. -/
theorem exists_passedBefore_iff
    (hreach : body.graph.Reaches Body.entry block) :
    (∃ path, body.graph.Path Body.entry path block ∧
      ∃ earlier ∈ body.passedBefore path instr,
        body.MayRead program earlier field) ↔
    (∃ source, block ∈ body.graph.next source ∧
      body.ReadOnWay program source field) ∨
    ∃ earlier ∈ body.before instr, body.MayRead program earlier field := by
  constructor
  · rintro ⟨path, hpath, earlier, hearlier, hfield⟩
    rcases List.mem_append.mp hearlier with hearlier | hearlier
    · rcases hpath.eq_or_append_edge with
        ⟨_, rfl⟩ | ⟨before, source, hbefore, hedge, rfl⟩
      · cases hearlier
      · rw [List.dropLast_concat] at hearlier
        exact Or.inl ⟨source, hedge, before, hbefore, earlier, hearlier, hfield⟩
    · exact Or.inr ⟨earlier, hearlier, hfield⟩
  · rintro (⟨source, hedge, path, hpath, earlier, hearlier, hfield⟩ |
      ⟨earlier, hearlier, hfield⟩)
    · refine ⟨path ++ [block], hpath.append_edge hedge, earlier, ?_, hfield⟩
      rw [passedBefore, List.dropLast_concat]
      exact List.mem_append_left _ hearlier
    · obtain ⟨path, hpath⟩ := hreach
      exact ⟨path, hpath, earlier, List.mem_append_right _ hearlier, hfield⟩

/-- The query is answered with what some path to the instruction reads before
it arrives. -/
theorem mayBeReadBefore_iff (haccepted : body.Accepted)
    (hinstr : instr ∈ body.instructionsOf block)
    (hreach : body.graph.Reaches Body.entry block)
    (hanswer : body.mayBeReadBefore program field instr = .ok answer) :
    answer = true ↔ ∃ path, body.graph.Path Body.entry path block ∧
      ∃ earlier ∈ body.passedBefore path instr,
        body.MayRead program earlier field := by
  have hbody := haccepted.wellFormed
  have hblock := lt_of_mem_instructionsOf hinstr
  obtain ⟨sets, hsets, hrest⟩ := exists_of_bind hanswer
  have hany : ((body.predecessors block).any fun source =>
        (sets.getD source .empty).contains field) = true ↔
      ∃ source, block ∈ body.graph.next source ∧
        body.ReadOnWay program source field := by
    simp only [List.any_eq_true, haccepted.indexed.1.mem_predecessors hblock,
      ← mem_graph_next, contains_readsThroughBlocks hsets]
  rw [exists_passedBefore_iff hreach, ← hany]
  rw [hbody.blockOf_eq hinstr] at hrest
  dsimp only at hrest
  split at hrest
  · next hsome =>
      obtain rfl := Except.ok.inj hrest
      exact iff_of_true rfl (Or.inl hsome)
  · next hnone =>
      rw [or_iff_right hnone]
      constructor
      · rintro rfl
        obtain ⟨earlier, hearlier, htest⟩ := exists_of_anyM hrest
        obtain ⟨set, hset, hcontains⟩ := exists_of_bind htest
        exact ⟨earlier, hearlier, set, hset, Except.ok.inj hcontains⟩
      · rintro ⟨earlier, hearlier, set, hset, hcontains⟩
        by_contra hfalse
        rw [Bool.not_eq_true] at hfalse
        subst hfalse
        have htest := forall_of_anyM hrest earlier hearlier
        rw [hset] at htest
        rw [Except.ok.inj htest] at hcontains
        cases hcontains

theorem mayBeReadBefore_answers (hbody : body.WellFormed)
    (hreads : ∀ block, body.graph.Reaches Body.entry block →
      ∀ instr ∈ body.instructionsOf block,
        Answers (body.reads program instr))
    (hinstr : instr ∈ body.instructionsOf block)
    (hreach : body.graph.Reaches Body.entry block) :
    Answers (body.mayBeReadBefore program field instr) := by
  apply Answers.bind (readsThroughBlocks_answers hbody hreads)
  intro sets _
  apply Answers.ite (.pure true)
  apply Answers.anyM
  intro earlier hearlier
  have hmem : earlier ∈ body.instructionsOf block := by
    rw [before, hbody.blockOf_eq hinstr] at hearlier
    exact (List.takeWhile_sublist _).subset hearlier
  exact .bind (hreads block hreach earlier hmem) fun _ _ => .pure _

/-- Reads are found exactly: the query for an instruction that can be reached
tells whether a path to it reads the field.  Where the reads of instructions
are known, as they are if superclasses come to an end, the worklist behind it
comes to its answer with an empty line.  It has no endless run, and never takes
anything out of a set. -/
theorem mayBeReadBefore_iff_on_some_path (haccepted : body.Accepted)
    (program : Program) :
    (∀ block instr field answer, instr ∈ body.instructionsOf block →
      body.graph.Reaches Body.entry block →
      body.mayBeReadBefore program field instr = .ok answer →
        (answer = true ↔ ∃ path, body.graph.Path Body.entry path block ∧
          ∃ earlier ∈ body.passedBefore path instr,
            body.MayRead program earlier field)) ∧
    (program.HasRoots → program.Covers body →
      ∀ instr, Answers (body.reads program instr)) ∧
    ((∀ block, body.graph.Reaches Body.entry block →
        ∀ instr ∈ body.instructionsOf block,
          Answers (body.reads program instr)) →
      (∀ block instr field, instr ∈ body.instructionsOf block →
        body.graph.Reaches Body.entry block →
          Answers (body.mayBeReadBefore program field instr)) ∧
      ∃ last : ReadState,
        body.readsThroughBlocks program = .ok last.sets ∧
          ReflTransGen (Spreading.Step body program) (Spreading.start body)
            ⟨last, []⟩) ∧
    Acc (Function.swap (Spreading.Step body program)) (Spreading.start body) ∧
    ∀ state next,
      ReflTransGen (Spreading.Step body program) (Spreading.start body) state →
      Spreading.Step body program state next →
        ∀ block, (state.found block).le (next.found block) = true := by
  have hbody := haccepted.wellFormed
  refine ⟨?_, fun hroots hcovers => reads_answers hcovers hroots, ?_,
    (Spreading.sound_start body program).acc, ?_⟩
  · intro block instr field answer hinstr hreach hanswer
    exact mayBeReadBefore_iff haccepted hinstr hreach hanswer
  · intro hreads
    refine ⟨fun block instr field hinstr hreach =>
      mayBeReadBefore_answers hbody hreads hinstr hreach, ?_⟩
    obtain ⟨sets, hsets⟩ := readsThroughBlocks_answers hbody hreads
    obtain ⟨last, rfl, hrun⟩ := exists_run_of_readsThroughBlocks hsets
    exact ⟨last, hsets, hrun⟩
  · intro state next hrun hstep block
    exact ((Spreading.run_invariants hrun).1.grows hstep block).le

def twoStaticFields : Program where
  types := #[{ descriptor := .plain "LC;"
               definition := some { parent := none, traits := {} } }]
  fields := #[{ holder := 0, name := "f", type := 0, traits := { isStatic := true } },
    { holder := 0, name := "g", type := 0, traits := { isStatic := true } }]
  methods := #[{ holder := 0, name := "main", params := [], returns := 0
                 traits := { isStatic := true } }]

/-- The head of a loop reads the first field, which the loop writes.  The
second field is written after the loop, and read only in a block that nothing
leads to. -/
def readInLoopHead : Body where
  method := 0
  isStatic := true
  values := #[
    { type := .primitive .int, definition := .instruction 0, users := [4, 6] },
    { type := .primitive .int, definition := .instruction 2, users := [3] },
    { type := .primitive .int, definition := .instruction 8, users := [] }]
  instructions := #[⟨0, .number 7, some 0⟩, ⟨0, .goto 1, none⟩,
    ⟨1, .staticGet 0, some 1⟩, ⟨1, .branch .eq 1 none 2 3, none⟩,
    ⟨2, .staticPut 0 0, none⟩, ⟨2, .goto 1, none⟩,
    ⟨3, .staticPut 1 0, none⟩, ⟨3, .ret none, none⟩,
    ⟨4, .staticGet 1, some 2⟩, ⟨4, .goto 3, none⟩]
  blocks := #[⟨[0, 1], [], []⟩, ⟨[2, 3], [], []⟩, ⟨[4, 5], [], []⟩,
    ⟨[6, 7], [], []⟩, ⟨[8, 9], [], []⟩]
  positions := #[0, 1, 0, 1, 0, 1, 0, 1, 0, 1]
  incoming := #[[], [0, 2], [1], [1, 4], []]

theorem readInLoopHead_accepted : readInLoopHead.Accepted :=
  ⟨0, true,
    [.block, .block, .block, .block, .block,
      .value 0 (.number 7) (.primitive .int), .push 0 (.goto 1),
      .value 1 (.staticGet 0) (.primitive .int),
      .push 1 (.branch .eq 1 none 2 3),
      .push 2 (.staticPut 0 0), .push 2 (.goto 1),
      .push 3 (.staticPut 1 0), .push 3 (.ret none),
      .value 4 (.staticGet 1) (.primitive .int), .push 4 (.goto 3)],
    _, _, rfl, by decide +kernel⟩

theorem twoStaticFields_covers : twoStaticFields.Covers readInLoopHead where
  method := by decide
  mentioned := by decide
  target htarget := by cases htarget
  held := by
    intro definition hdefinition field shape hknown
    have hunknown : ∀ definition ∈ twoStaticFields.fields,
        definition.facts.knowledge = .unknown := by
      simp [twoStaticFields]
    rw [hunknown definition hdefinition] at hknown
    cases hknown

theorem readInLoopHead_reaches :
    readInLoopHead.graph.Reaches Body.entry 2 ∧
      readInLoopHead.graph.Reaches Body.entry 3 := by
  have hhead : readInLoopHead.graph.Reaches Body.entry 1 :=
    (Graph.Reaches.refl _ _).append_edge (by decide)
  exact ⟨hhead.append_edge (by decide), hhead.append_edge (by decide)⟩

/-- The read in the head of the loop comes before the write in the loop, and
the read that cannot be reached comes before nothing. -/
theorem readInLoopHead_mayBeReadBefore :
    readInLoopHead.Accepted ∧ twoStaticFields.HasRoots ∧
    twoStaticFields.Covers readInLoopHead ∧
    Answers (readInLoopHead.mayBeReadBefore twoStaticFields 0 4) ∧
    (∃ path, readInLoopHead.graph.Path Body.entry path 2 ∧
      ∃ earlier ∈ readInLoopHead.passedBefore path 4,
        readInLoopHead.MayRead twoStaticFields earlier 0) ∧
    (¬ ∃ path, readInLoopHead.graph.Path Body.entry path 3 ∧
      ∃ earlier ∈ readInLoopHead.passedBefore path 6,
        readInLoopHead.MayRead twoStaticFields earlier 1) ∧
    Acc (Function.swap (Spreading.Step readInLoopHead twoStaticFields))
      (Spreading.start readInLoopHead) ∧
    ∃ last : ReadState, ReflTransGen
      (Spreading.Step readInLoopHead twoStaticFields)
      (Spreading.start readInLoopHead) ⟨last, []⟩ := by
  obtain ⟨hexact, hreads, hanswers, hacc, _⟩ := mayBeReadBefore_iff_on_some_path
    readInLoopHead_accepted twoStaticFields
  have hroots : twoStaticFields.HasRoots :=
    Program.hasRoots_of_climb (by decide)
  obtain ⟨hloop, hafter⟩ := readInLoopHead_reaches
  obtain ⟨hquery, last, _, hrun⟩ := hanswers fun _ _ instr _ =>
    hreads hroots twoStaticFields_covers instr
  refine ⟨readInLoopHead_accepted, hroots, twoStaticFields_covers,
    hquery 2 4 0 (by decide) hloop,
    (hexact 2 4 0 true (by decide) hloop (by decide +kernel)).mp rfl, ?_, hacc,
    last, hrun⟩
  intro hpath
  exact absurd ((hexact 3 6 1 false (by decide) hafter
    (by decide +kernel)).mpr hpath) Bool.false_ne_true

/-- The field of a class that is its own superclass is read. -/
def readAway : Body where
  method := 0
  isStatic := true
  values := #[{ type := .reference (.array 2) .maybe
                definition := .instruction 0 }]
  instructions := #[⟨0, .staticGet 0, some 0⟩, ⟨0, .ret none, none⟩]
  blocks := #[⟨[0, 1], [], []⟩]
  positions := #[0, 1]
  incoming := #[[]]

/-- What the read in front of the return may run is never found out. -/
theorem readAway_mayBeReadBefore_endless :
    readAway.Accepted ∧ Program.circularClass.Covers readAway ∧
      1 ∈ readAway.instructionsOf Body.entry ∧
      readAway.graph.Reaches Body.entry Body.entry ∧
      readAway.mayBeReadBefore .circularClass 0 1 = .error .endless ∧
      ∀ found, ¬ Program.circularClass.Ascends
        Program.circularClass.startsObservably 0 found := by
  refine ⟨⟨0, true,
    [.block, .value 0 (.staticGet 0) (.reference (.array 2) .maybe),
      .push 0 (.ret none)], _, _, rfl, by decide +kernel⟩,
    Program.circularClass_covers rfl (by decide), by decide,
    Graph.Reaches.refl _ _, rfl, Program.circularClass_not_ascends⟩

end Body

end FlowFacts
