/-
Which writes of static fields are recorded.  A recorded write has been found
to reach all exits, either by dominance or because the body is taken to be
straight.  In a straight body the blocks stand in one line, and the write
reaches all exits exactly if no return comes before it on the line.
-/
import FlowFacts.Proofs.DominatorTree
import FlowFacts.Proofs.StaticEntries

namespace FlowFacts

namespace Body

variable {body : Body} {first last block : BlockId} {path : List BlockId}
variable {steps : Nat}

/-- The blocks met when the first successor is followed from a block. -/
def line (body : Body) : Nat → BlockId → List BlockId
  | 0, block => [block]
  | steps + 1, block =>
      block ::
        match body.successors block with
        | next :: _ => line body steps next
        | [] => []

/-- Every way from the entry to a return passes the block. -/
def OnEveryExit (body : Body) (block : BlockId) : Prop :=
  ∀ exit ∈ body.returnBlocks, ∀ path,
    body.graph.Path Body.entry path exit → block ∈ path

theorem successors_eq_of_straight (hstraight : body.isStraightLine = true)
    (hlast : last ∈ body.successors first) : body.successors first = [last] := by
  have hlt := lt_of_mem_successors hlast
  have hall := List.all_eq_true.mp hstraight first (List.mem_range.mpr hlt)
  have hlength : (body.successors first).length ≤ 1 := by simpa using hall
  match hsuccessors : body.successors first with
  | [] => simp [hsuccessors] at hlast
  | [only] =>
      rw [hsuccessors, List.mem_singleton] at hlast
      rw [hlast]
  | _ :: _ :: _ => simp [hsuccessors] at hlength

/-- A straight body has no choice of paths. -/
theorem path_prefix_line (hstraight : body.isStraightLine = true)
    (hpath : body.graph.Path first path last) (steps : Nat)
    (hlength : path.length ≤ steps + 1) : path <+: body.line steps first := by
  induction hpath generalizing steps with
  | single node =>
      cases steps with
      | zero => exact List.prefix_rfl
      | succ steps => exact (List.prefix_cons_inj node).mpr List.nil_prefix
  | @step first second last path hedge hrest ih =>
      cases steps with
      | zero =>
          have hpos := List.length_pos_of_mem hrest.first_mem
          rw [List.length_cons] at hlength
          omega
      | succ steps =>
          rw [line, successors_eq_of_straight hstraight
            (mem_graph_next.mp hedge)]
          rw [List.length_cons] at hlength
          exact (List.prefix_cons_inj first).mpr (ih steps (by omega))

/-- The line is walked by a path, which has not met a block as long as the
line has not. -/
theorem exists_path_of_mem_takeWhile {exit : BlockId}
    (hexit : exit ∈ (body.line steps first).takeWhile (· != block)) :
    ∃ path, body.graph.Path first path exit ∧ block ∉ path := by
  induction steps generalizing first with
  | zero =>
      rw [line, List.takeWhile_cons] at hexit
      split at hexit
      · next hne =>
          obtain rfl := List.mem_singleton.mp hexit
          have hexit : block ≠ exit := (bne_iff_ne.mp hne).symm
          exact ⟨[exit], .single exit, by simpa using hexit⟩
      · simp at hexit
  | succ steps ih =>
      rw [line, List.takeWhile_cons] at hexit
      split at hexit
      · next hne =>
          have hfirst : block ≠ first := (bne_iff_ne.mp hne).symm
          rcases List.mem_cons.mp hexit with rfl | hexit
          · exact ⟨[exit], .single exit, by simpa using hfirst⟩
          · cases hsuccessors : body.successors first with
            | nil => simp [hsuccessors] at hexit
            | cons next rest =>
                simp only [hsuccessors] at hexit
                obtain ⟨path, hpath, hnot⟩ := ih hexit
                have hedge : next ∈ body.graph.next first :=
                  mem_graph_next.mpr (by simp [hsuccessors])
                exact ⟨first :: path, .step hedge hpath, by simp [hfirst, hnot]⟩
      · simp at hexit

/-- In a straight body a block is passed on the way to every return exactly
if the line comes to no return before it. -/
theorem onEveryExit_iff_of_straight (hbody : body.WellFormed)
    (hstraight : body.isStraightLine = true) (block : BlockId) :
    body.OnEveryExit block ↔
      ∀ exit ∈ (body.line body.blocks.size Body.entry).takeWhile (· != block),
        exit ∉ body.returnBlocks := by
  constructor
  · intro hevery exit hexit hreturn
    obtain ⟨path, hpath, hnot⟩ := exists_path_of_mem_takeWhile hexit
    exact hnot (hevery exit hreturn path hpath)
  · intro hnone exit hreturn path hpath
    by_contra hnot
    obtain ⟨short, hshort, hnodup, hsubset⟩ := hpath.exists_nodup
    have hlength := hshort.length_le_size hbody.graph_closed
      hbody.graph_closed.entry_lt hnodup
    rw [size_graph] at hlength
    obtain ⟨rest, hline⟩ :=
      path_prefix_line hstraight hshort body.blocks.size (by omega)
    apply hnone exit _ hreturn
    rw [← hline, List.takeWhile_append_of_pos]
    · exact List.mem_append_left _ hshort.last_mem
    · intro node hnode
      have hne : node ≠ block := by
        rintro rfl
        exact hnot (hsubset hnode)
      simpa using hne

theorem onEveryExit_of_dominatesAll {tree : Dominators}
    (htree : tree.Describes body)
    (hall : tree.dominatesAll block body.returnBlocks = .ok true) :
    body.OnEveryExit block := by
  intro exit hreturn path hpath
  have hanswer := forall_of_allM hall exit hreturn
  have hlt : exit < body.blocks.size := by
    have hmem := (List.mem_filter.mp hreturn).1
    exact List.mem_range.mp hmem
  obtain ⟨answer, hanswer', hiff⟩ := htree.dominates_eq_ok (a := block) hlt
  obtain rfl := Except.ok.inj (hanswer.symm.trans hanswer')
  rcases hiff.mp rfl with rfl | ⟨_, hpaths⟩
  · exact hpath.last_mem
  · exact hpaths path hpath

/-- What the test for reaching all exits establishes. -/
theorem onEveryExit_of_reachesAllExits (hbody : body.WellFormed)
    {instr : InstrId} (hreaches : body.reachesAllExits instr = .ok true)
    (hstraight : body.isStraightLine = false) :
    body.OnEveryExit (body.blockOf instr) := by
  rw [reachesAllExits, hstraight] at hreaches
  obtain ⟨tree, htree, hall⟩ := exists_of_bind hreaches
  obtain ⟨built, hbuilt, hdescribes, _⟩ := exists_dominators hbody
  obtain rfl := Except.ok.inj (hbuilt.symm.trans htree)
  exact onEveryExit_of_dominatesAll hdescribes hall

/-- An instruction found to reach all exits does so, except in a straight body
whose line comes to a return before it. -/
theorem onEveryExit_iff_of_reachesAllExits (hbody : body.WellFormed)
    {instr : InstrId} (hreaches : body.reachesAllExits instr = .ok true) :
    body.OnEveryExit (body.blockOf instr) ↔
      (body.isStraightLine = true →
        ∀ exit ∈ (body.line body.blocks.size Body.entry).takeWhile
          (· != body.blockOf instr), exit ∉ body.returnBlocks) := by
  cases hstraight : body.isStraightLine with
  | true => simpa using onEveryExit_iff_of_straight hbody hstraight _
  | false =>
      refine ⟨fun _ => by simp, fun _ => ?_⟩
      exact onEveryExit_of_reachesAllExits hbody hreaches hstraight

theorem reachesAllExits_of_visibility {program : Program} {field : FieldId}
    {write : InstrId} {sameBefore : Bool} {visibility : Visibility}
    (hvisibility : body.visibility program field write sameBefore =
      .ok visibility) (hne : visibility ≠ .partially) :
    body.reachesAllExits write = .ok true := by
  obtain ⟨reaches, hreaches, hrest⟩ := exists_of_bind hvisibility
  cases reaches with
  | true => exact hreaches
  | false =>
      obtain rfl := Except.ok.inj hrest
      exact absurd rfl hne

end Body

namespace ClassInitializer

variable {init : ClassInitializer} {findings after : Findings}
variable {field : FieldId} {value : ValueId}

/-- The note about a write changes its entry only if the write reaches all
exits. -/
theorem reachesAllExits_of_noteWrites {write : InstrId}
    (hnote : init.noteWrites findings field [(write, value)] = .ok after)
    (hchanged : after ≠ findings) :
    init.body.reachesAllExits write = .ok true := by
  obtain ⟨visibility, hvisibility, hnote⟩ := exists_of_bind hnote
  apply Body.reachesAllExits_of_visibility hvisibility
  rintro rfl
  exact hchanged (Except.ok.inj hnote).symm

/-- A field becomes known through its only write, or by default if there is
no write at all. -/
theorem analyze_cases (hanalyze : init.analyze findings = .ok after)
    (hbefore : findings.knowledge field = .unknown)
    (hafter : after.knowledge field ≠ .unknown) :
    init.body.putsOf field = [] ∨ ∃ write,
      init.body.putsOf field = [write] ∧
        init.body.reachesAllExits write = .ok true := by
  have hchanged : after.fields.find? field ≠ findings.fields.find? field := by
    intro hsame
    rw [Findings.knowledge_congr hsame] at hafter
    exact hafter hbefore
  obtain ⟨heligible, ⟨write, hputs⟩ | ⟨hnone, _⟩⟩ :=
    analyze_changes hanalyze hchanged
  · obtain ⟨value, hopcode⟩ := Body.exists_opcode_of_mem_putsOf
      (show write ∈ init.body.putsOf field by simp [hputs])
    obtain ⟨state, state', hstate, hnote, hstate'⟩ :=
      exists_noteWrites hanalyze heligible hputs hopcode
    refine Or.inr ⟨write, hputs, reachesAllExits_of_noteWrites hnote ?_⟩
    rintro rfl
    exact hchanged (hstate'.trans hstate)
  · exact Or.inl hnone

end ClassInitializer

namespace Body

variable {body : Body} {program : Program} {defaults : Table KnownValue}
variable {before after : Findings} {field : FieldId} {put : InstrId}

/-- If a field with one write becomes known, then the write is passed on the
way to every return, except in a straight body whose line comes to a return
before the write. -/
theorem onEveryExit_iff_of_recorded (haccepted : body.Accepted)
    (hrun : body.noteStaticContents program defaults before = .ok after)
    (hbefore : before.knowledge field = .unknown)
    (hafter : after.knowledge field ≠ .unknown)
    (hput : body.putsOf field = [put]) :
    (∀ exit ∈ body.returnBlocks, ∀ path,
      body.graph.Path Body.entry path exit → body.blockOf put ∈ path) ↔
      (body.isStraightLine = true →
        ∀ exit ∈ (body.line body.blocks.size Body.entry).takeWhile
          (· != body.blockOf put), exit ∉ body.returnBlocks) := by
  have hbody := haccepted.wellFormed
  change body.OnEveryExit (body.blockOf put) ↔ _
  cases hstraight : body.isStraightLine with
  | true => simpa using onEveryExit_iff_of_straight hbody hstraight _
  | false =>
      refine ⟨fun _ => by simp, fun _ => ?_⟩
      obtain ⟨definition, _, hrun⟩ := exists_of_bind hrun
      split at hrun
      · rcases ClassInitializer.analyze_cases hrun hbefore hafter with
          hnone | ⟨write, hwrite, hreaches⟩
        · simp [hput] at hnone
        · rw [hput, List.cons.injEq] at hwrite
          rw [hwrite.1]
          exact onEveryExit_of_reachesAllExits hbody hreaches hstraight
      · obtain rfl := Except.ok.inj hrun
        exact absurd hbefore hafter

/-- A class with one static field, which its initializer writes. -/
def oneStaticField : Program where
  types := #[{ descriptor := .plain "LC;"
               definition := some { parent := none, traits := {} } }]
  fields := #[{ holder := 0, name := "f", type := 0, writtenOnlyIn := some 0,
                traits := { isStatic := true } }]
  methods := #[{ holder := 0, name := "init", params := [], returns := 0,
                 traits := { isStatic := true, isClassInitializer := true } }]

/-- The field is written before the body branches to two returns. -/
def writeThenBranch : Body where
  method := 0
  isStatic := true
  values := #[{ type := .primitive .int, definition := .instruction 0,
                users := [1, 2] }]
  instructions := #[⟨0, .number 7, some 0⟩, ⟨0, .staticPut 0 0, none⟩,
    ⟨0, .branch .eq 0 none 1 2, none⟩, ⟨1, .ret none, none⟩,
    ⟨2, .ret none, none⟩]
  blocks := #[⟨[0, 1, 2], [], []⟩, ⟨[3], [], []⟩, ⟨[4], [], []⟩]
  positions := #[0, 1, 2, 0, 0]
  incoming := #[[], [0], [0]]

theorem writeThenBranch_accepted : writeThenBranch.Accepted :=
  ⟨0, true,
    [.block, .block, .block, .value 0 (.number 7) (.primitive .int),
      .push 0 (.staticPut 0 0), .push 0 (.branch .eq 0 none 1 2),
      .push 1 (.ret none), .push 2 (.ret none)],
    _, _, rfl, by decide +kernel⟩

theorem writeThenBranch_onEveryExit :
    writeThenBranch.Accepted ∧ writeThenBranch.putsOf 0 = [1] ∧
      (∃ after, writeThenBranch.noteStaticContents oneStaticField .empty {} =
          .ok after ∧ after.knowledge 0 = .exactly (.number 7)) ∧
      ∀ exit ∈ writeThenBranch.returnBlocks, ∀ path,
        writeThenBranch.graph.Path Body.entry path exit →
          writeThenBranch.blockOf 1 ∈ path := by
  have hrun : ∃ after, writeThenBranch.noteStaticContents oneStaticField
      .empty {} = .ok after ∧ after.knowledge 0 = .exactly (.number 7) :=
    ⟨_, rfl, rfl⟩
  obtain ⟨after, hrun, hafter⟩ := hrun
  have hiff := onEveryExit_iff_of_recorded writeThenBranch_accepted hrun rfl
    (by rw [hafter]; simp) (show writeThenBranch.putsOf 0 = [1] from rfl)
  refine ⟨writeThenBranch_accepted, rfl, ⟨after, hrun, hafter⟩, ?_⟩
  exact hiff.mpr fun hstraight => absurd hstraight (by decide)

/-- The entry returns under a handler, and only the handler writes. -/
def writeWhenCaught : Body where
  method := 0
  isStatic := true
  values := #[{ type := .top, definition := .instruction 0, users := [] },
    { type := .primitive .int, definition := .instruction 2, users := [3] }]
  instructions := #[⟨0, .classObject 0, some 0⟩, ⟨0, .ret none, none⟩,
    ⟨1, .number 7, some 1⟩, ⟨1, .staticPut 0 1, none⟩, ⟨1, .ret none, none⟩]
  blocks := #[⟨[0, 1], [], [⟨none, 1⟩]⟩, ⟨[2, 3, 4], [], []⟩]
  positions := #[0, 1, 0, 1, 2]
  incoming := #[[], [0]]

/-- A straight body can return before the write that is recorded. -/
theorem writeWhenCaught_not_onEveryExit :
    writeWhenCaught.Accepted ∧ writeWhenCaught.putsOf 0 = [3] ∧
      ClassInitializer.isEligible ⟨oneStaticField, writeWhenCaught, 0, .empty⟩
        0 = .ok true ∧
      (∃ after, writeWhenCaught.noteStaticContents oneStaticField .empty {} =
          .ok after ∧ after.knowledge 0 = .exactly (.number 7)) ∧
      ¬ ∀ exit ∈ writeWhenCaught.returnBlocks, ∀ path,
        writeWhenCaught.graph.Path Body.entry path exit →
          writeWhenCaught.blockOf 3 ∈ path := by
  have haccepted : writeWhenCaught.Accepted :=
    ⟨0, true,
      [.block, .block, .value 0 (.classObject 0) .top, .push 0 (.ret none),
        .handler 0 ⟨none, 1⟩, .value 1 (.number 7) (.primitive .int),
        .push 1 (.staticPut 0 1), .push 1 (.ret none)],
      _, _, rfl, by decide +kernel⟩
  refine ⟨haccepted, rfl, rfl, ⟨_, rfl, rfl⟩, ?_⟩
  intro hevery
  exact absurd (hevery 0 (by decide) [0] (.single 0)) (by decide)

end Body

end FlowFacts
